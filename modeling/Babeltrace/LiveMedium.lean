import Mathlib.Data.List.Induction
import Mathlib.Tactic.Linarith

/-!
# The medium of a live data stream

`CtfLiveMedium::buf()` serves an item sequence iterator from a relay daemon. The iterator sees the
packets of the successive indexes one after the other, and the relay has each one at an offset of
its own. A reply carries the bytes at the offset of the request, and its length.
-/

namespace Babeltrace.LiveMedium

/-! ## The relay -/

structure Index where
  offset : ℕ
  packetSize : ℕ
deriving DecidableEq, Repr

/-- What comes back for `LTTNG_VIEWER_GET_PACKET` -/
inductive Reply
  | ok (len : ℕ)
  | retry
  | err (newMetadata newStream : Bool)
  | eof
  | unknown
  | interrupted
  | failed
deriving DecidableEq, Repr

/-- The `n` bytes which the relay has from `offset`. -/
def relayBytes (relay : ℕ → UInt8) (offset n : ℕ) : List UInt8 :=
  (List.range' offset n).map relay

/-- `overflow` is a write past the end of the destination. -/
inductive GetStreamBytesStatus
  | ok (data : List UInt8)
  | again
  | eof
  | error
  | overflow
deriving DecidableEq, Repr

/-- The length of the reply replaces the requested one and is the length which the function
receives. -/
def getStreamBytes (relay : ℕ → UInt8) (offset reqLen : ℕ) : Reply → GetStreamBytesStatus
  | .ok len =>
    if len = 0 then .error
    else if reqLen < len then .overflow
    else .ok (relayBytes relay offset len)
  | .retry => .again
  -- Either flag makes the caller try again once the new metadata or streams are there.
  | .err newMetadata newStream => if newMetadata || newStream then .again else .error
  | .eof => .eof
  | .unknown => .error
  | .interrupted => .again
  | .failed => .error

/-! ## The medium -/

/-- `lttng_live_stream_iterator::CurPktInfo`, in bits. -/
structure CurPktInfo where
  offsetInRelay : ℕ
  len : ℕ
deriving DecidableEq, Repr

structure State where
  hasStreamHungUp : Bool
  curPktBegOffsetInStream : ℕ
  curPktInfo : Option CurPktInfo
deriving DecidableEq, Repr

def State.initial : State := ⟨false, 0, none⟩

/-- `lttng_live_iterator_next_handle_one_no_data_stream()` on an index -/
def State.nextIndex (s : State) (index : Index) : State :=
  { s with curPktInfo := some ⟨8 * index.offset % 2 ^ 64, index.packetSize⟩ }

/-- How `buf()` ends. -/
inductive Result
  | buf (data : List UInt8)
  | noData
  | tryAgain
  | error
  | overflow
  | abort
deriving DecidableEq, Repr

def maxQuerySize : ℕ := 256 * 1024

/-- The subtraction of `DataLen`. -/
def subLen (a b : ℕ) : ℕ := (a + 2 ^ 64 - b) % 2 ^ 64

def reqLen (pkt : CurPktInfo) (requestedOffsetInPacket : ℕ) : ℕ :=
  min (subLen pkt.len requestedOffsetInPacket) (8 * maxQuerySize)

/-- The end of `buf()`, from the status of `lttng_live_get_stream_bytes()` -/
def GetStreamBytesStatus.result : GetStreamBytesStatus → Result
  | .ok data => .buf data
  | .again => .tryAgain
  | .eof => .noData
  | .error => .error
  | .overflow => .overflow

/-- The reply is what comes back if it makes a request. The minimum size isn't used. -/
def buf (relay : ℕ → UInt8) (s : State) (requestedOffsetInStream : ℕ) (reply : Reply) :
    Result × State :=
  if s.hasStreamHungUp then (.noData, s)
  else if requestedOffsetInStream < s.curPktBegOffsetInStream then (.abort, s)
  else
    match s.curPktInfo with
    | none => (.abort, s)
    | some pkt =>
      let requestedOffsetInPacket := subLen requestedOffsetInStream s.curPktBegOffsetInStream
      if requestedOffsetInPacket = pkt.len then
        (.tryAgain,
          { s with
            curPktBegOffsetInStream := (s.curPktBegOffsetInStream + pkt.len) % 2 ^ 64
            curPktInfo := none })
      else
        let requestedOffsetInRelay := (pkt.offsetInRelay + requestedOffsetInPacket) % 2 ^ 64
        ((getStreamBytes relay (requestedOffsetInRelay / 8) (reqLen pkt requestedOffsetInPacket / 8)
            reply).result, s)

/-! ## The logical stream -/

/-- The size of the packets of `indexes`, in bits. -/
def streamLen (indexes : List Index) : ℕ :=
  (indexes.map Index.packetSize).sum

@[simp]
theorem streamLen_append (indexes : List Index) (index : Index) :
    streamLen (indexes ++ [index]) = streamLen indexes + index.packetSize := by
  simp [streamLen]

/-- The packets of `indexes`, one after the other. -/
def logicalStream (relay : ℕ → UInt8) (indexes : List Index) : List UInt8 :=
  indexes.flatMap fun index => relayBytes relay index.offset (index.packetSize / 8)

/-- The packets are whole bytes, at offsets which a `DataLen` can represent. -/
structure Placed (indexes : List Index) : Prop where
  packetSize_mod : ∀ index ∈ indexes, index.packetSize % 8 = 0
  offset_lt : ∀ index ∈ indexes, 8 * index.offset + index.packetSize < 2 ^ 64
  streamLen_lt : streamLen indexes < 2 ^ 64

theorem length_relayBytes (relay : ℕ → UInt8) (offset n : ℕ) :
    (relayBytes relay offset n).length = n := by
  simp [relayBytes]

variable {n : ℕ} {indexes : List Index} {relay : ℕ → UInt8} {s : State}

theorem take_drop_relayBytes (relay : ℕ → UInt8) {offset k l : ℕ} (h : k + l ≤ n) :
    ((relayBytes relay offset n).drop k).take l = relayBytes relay (offset + k) l := by
  apply List.ext_getElem
  · simp only [List.length_take, List.length_drop, length_relayBytes]
    omega
  · intro i _ _
    simp [relayBytes, Nat.add_assoc]

theorem logicalStream_append (relay : ℕ → UInt8) (indexes : List Index) (index : Index) :
    logicalStream relay (indexes ++ [index]) =
      logicalStream relay indexes ++ relayBytes relay index.offset (index.packetSize / 8) := by
  simp [logicalStream]

theorem Placed.of_append {index : Index} (h : Placed (indexes ++ [index])) :
    Placed indexes where
  packetSize_mod i hi := h.packetSize_mod i (List.mem_append_left _ hi)
  offset_lt i hi := h.offset_lt i (List.mem_append_left _ hi)
  streamLen_lt := by
    have hlt := h.streamLen_lt
    rw [streamLen_append] at hlt
    omega

theorem Placed.length_logicalStream (relay : ℕ → UInt8) (h : Placed indexes) :
    8 * (logicalStream relay indexes).length = streamLen indexes := by
  induction indexes using List.reverseRecOn with
  | nil => rfl
  | append_singleton indexes index ih =>
    have hmod := h.packetSize_mod index (by simp)
    have hlen := ih h.of_append
    rw [logicalStream_append, streamLen_append, List.length_append, length_relayBytes]
    omega

theorem Placed.take_drop_logicalStream (relay : ℕ → UInt8) {index : Index} {off : ℕ}
    (h : Placed (indexes ++ [index])) (hoff : off % 8 = 0) (hn : off + 8 * n ≤ index.packetSize) :
    ((logicalStream relay (indexes ++ [index])).drop ((streamLen indexes + off) / 8)).take n =
      relayBytes relay (index.offset + off / 8) n := by
  have hlen := h.of_append.length_logicalStream relay
  have hskip : (streamLen indexes + off) / 8 = (logicalStream relay indexes).length + off / 8 := by
    omega
  have hpast : (logicalStream relay indexes).drop ((logicalStream relay indexes).length + off / 8) =
      [] := List.drop_eq_nil_of_le (Nat.le_add_right ..)
  rw [logicalStream_append, hskip, List.drop_append, hpast, List.nil_append, Nat.add_sub_cancel_left,
    take_drop_relayBytes]
  omega

/-! ## Whole runs -/

/-- An index comes once the medium has left the previous packet, the stream may hang up at any time,
and any call of `buf()` may follow, whatever the relay replies. -/
inductive Run (relay : ℕ → UInt8) : List Index → State → Prop
  | initial : Run relay [] .initial
  | nextIndex {indexes : List Index} {s : State} {index : Index} (h : Run relay indexes s)
      (hinfo : s.curPktInfo = none) (hplaced : Placed (indexes ++ [index])) :
      Run relay (indexes ++ [index]) (s.nextIndex index)
  | hangUp {indexes : List Index} {s : State} (h : Run relay indexes s) :
      Run relay indexes { s with hasStreamHungUp := true }
  | call {indexes : List Index} {s : State} {offset : ℕ} {reply : Reply} (h : Run relay indexes s)
      (hoff : offset < 2 ^ 64) (habort : (buf relay s offset reply).1 ≠ .abort)
      (hover : (buf relay s offset reply).1 ≠ .overflow) :
      Run relay indexes (buf relay s offset reply).2

def AtLast (indexes : List Index) (s : State) : Prop :=
  match s.curPktInfo with
  | none => s.curPktBegOffsetInStream = streamLen indexes
  | some pkt => ∃ before index, indexes = before ++ [index] ∧
      pkt = ⟨8 * index.offset, index.packetSize⟩ ∧ s.curPktBegOffsetInStream = streamLen before

theorem subLen_eq {a b : ℕ} (hle : b ≤ a) (ha : a < 2 ^ 64) : subLen a b = a - b := by
  rw [subLen, Nat.sub_add_comm hle, Nat.add_mod_right, Nat.mod_eq_of_lt (by omega)]

theorem buf_state (relay : ℕ → UInt8) (s : State) (offset : ℕ) (reply : Reply) :
    (buf relay s offset reply).2 = s ∨
      ∃ pkt, s.curPktInfo = some pkt ∧
        (buf relay s offset reply).2 =
          { s with
            curPktBegOffsetInStream := (s.curPktBegOffsetInStream + pkt.len) % 2 ^ 64
            curPktInfo := none } := by
  by_cases hhung : s.hasStreamHungUp = true
  · exact .inl (by rw [buf, if_pos hhung])
  by_cases hlt : offset < s.curPktBegOffsetInStream
  · exact .inl (by rw [buf, if_neg hhung, if_pos hlt])
  rw [buf, if_neg hhung, if_neg hlt]
  cases hinfo : s.curPktInfo with
  | none => exact .inl rfl
  | some pkt =>
    by_cases hend : subLen offset s.curPktBegOffsetInStream = pkt.len
    · exact .inr ⟨pkt, rfl, by dsimp only; rw [if_pos hend]⟩
    · exact .inl (by dsimp only; rw [if_neg hend])

theorem AtLast.buf {offset : ℕ} {reply : Reply} (h : AtLast indexes s) (hplaced : Placed indexes) :
    AtLast indexes (LiveMedium.buf relay s offset reply).2 := by
  obtain hs | ⟨pkt, hinfo, hs⟩ := buf_state relay s offset reply
  · rw [hs]
    exact h
  · have hlt := hplaced.streamLen_lt
    simp only [AtLast, hinfo] at h
    obtain ⟨before, index, rfl, rfl, hbeg⟩ := h
    rw [streamLen_append] at hlt
    rw [hs]
    simp only [AtLast, streamLen_append, hbeg]
    exact Nat.mod_eq_of_lt hlt

theorem Run.placed (h : Run relay indexes s) : Placed indexes := by
  induction h with
  | initial => exact ⟨by simp, by simp, by decide⟩
  | nextIndex _ _ hplaced => exact hplaced
  | hangUp _ ih => exact ih
  | call _ _ _ _ ih => exact ih

theorem Run.atLast (h : Run relay indexes s) : AtLast indexes s := by
  induction h with
  | initial => rfl
  | @nextIndex indexes s index hrun hinfo hplaced ih =>
    have hlt := hplaced.offset_lt index (by simp)
    simp only [AtLast, hinfo] at ih
    refine ⟨indexes, index, rfl, ?_, ih⟩
    rw [Nat.mod_eq_of_lt (by omega)]
  | hangUp _ ih => exact ih
  | call hrun _ _ _ ih => exact ih.buf hrun.placed

/-! ## Requests -/

/-- A whole byte of the current packet, or its end -/
structure Requested (s : State) (pkt : CurPktInfo) (offset : ℕ) : Prop where
  curPktInfo : s.curPktInfo = some pkt
  le_offset : s.curPktBegOffsetInStream ≤ offset
  offset_le : offset ≤ s.curPktBegOffsetInStream + pkt.len
  offset_mod : offset % 8 = 0

/-- `buf()` makes a request to the relay. -/
def Asks (s : State) (pkt : CurPktInfo) (offset : ℕ) : Prop :=
  s.hasStreamHungUp = false ∧ offset ≠ s.curPktBegOffsetInStream + pkt.len

/-- The bytes which `buf()` requests from the relay. -/
def reqBytes (s : State) (pkt : CurPktInfo) (offset : ℕ) : ℕ :=
  reqLen pkt (offset - s.curPktBegOffsetInStream) / 8

/-- A buffer has at least the minimum size and at most the requested one, ends within the packet and
holds the bytes of the logical stream; a reply which is too short or too long is an error. -/
structure CallOk (relay : ℕ → UInt8) (indexes : List Index) (s : State) (pkt : CurPktInfo)
    (offset minSize : ℕ) (reply : Reply) : Prop where
  safe : (buf relay s offset reply).1 ≠ .abort ∧ (buf relay s offset reply).1 ≠ .overflow
  minSize_le : ∀ data, (buf relay s offset reply).1 = .buf data → minSize ≤ data.length
  le_reqBytes : ∀ data, (buf relay s offset reply).1 = .buf data →
    data.length ≤ reqBytes s pkt offset
  within : ∀ data, (buf relay s offset reply).1 = .buf data →
    offset + 8 * data.length ≤ s.curPktBegOffsetInStream + pkt.len
  bytes : ∀ data, (buf relay s offset reply).1 = .buf data →
    data = ((logicalStream relay indexes).drop (offset / 8)).take data.length
  bad_reply : ∀ len, Asks s pkt offset → reply = .ok len →
    len < minSize ∨ reqBytes s pkt offset < len → (buf relay s offset reply).1 = .error

def ReplyOk (s : State) (pkt : CurPktInfo) (offset minSize : ℕ) (reply : Reply) : Prop :=
  Asks s pkt offset → ∀ len, reply = .ok len → len ≠ 0 →
    minSize ≤ len ∧ len ≤ reqBytes s pkt offset

section

variable {relay : ℕ → UInt8} {indexes : List Index} {s : State} {pkt : CurPktInfo} {offset : ℕ}

theorem Requested.buf_of_not_asks (relay : ℕ → UInt8) (h : Requested s pkt offset) (hlt : offset < 2 ^ 64)
    (hasks : ¬ Asks s pkt offset) (reply : Reply) :
    (buf relay s offset reply).1 = .noData ∨ (buf relay s offset reply).1 = .tryAgain := by
  cases hhung : s.hasStreamHungUp with
  | true => exact .inl (by rw [buf, if_pos hhung])
  | false =>
    have hend : offset = s.curPktBegOffsetInStream + pkt.len := by
      by_contra hne
      exact hasks ⟨hhung, hne⟩
    have hle := h.le_offset
    right
    rw [buf, if_neg (by simp [hhung]), if_neg (Nat.not_lt.mpr hle), h.curPktInfo]
    change (if subLen offset s.curPktBegOffsetInStream = pkt.len then _ else _ : Result × State).1 =
      .tryAgain
    rw [if_pos (by rw [subLen_eq hle hlt]; omega)]

theorem Requested.buf_of_asks (relay : ℕ → UInt8) (h : Requested s pkt offset) (hlt : offset < 2 ^ 64)
    (hasks : Asks s pkt offset) (reply : Reply) :
    (buf relay s offset reply).1 =
      (getStreamBytes relay
        ((pkt.offsetInRelay + (offset - s.curPktBegOffsetInStream)) % 2 ^ 64 / 8)
        (reqBytes s pkt offset) reply).result := by
  have hle := h.le_offset
  have hne := hasks.2
  rw [buf, if_neg (by simp [hasks.1]), if_neg (Nat.not_lt.mpr hle), h.curPktInfo, reqBytes,
    ← subLen_eq hle hlt]
  change (if subLen offset s.curPktBegOffsetInStream = pkt.len then _ else _ : Result × State).1 = _
  rw [if_neg (by rw [subLen_eq hle hlt]; omega)]

theorem Requested.reqBytes_le (h : Requested s pkt offset) (hlen : pkt.len < 2 ^ 64) :
    offset + 8 * reqBytes s pkt offset ≤ s.curPktBegOffsetInStream + pkt.len := by
  have hle := h.le_offset
  have hend := h.offset_le
  have hsub : subLen pkt.len (offset - s.curPktBegOffsetInStream) =
      pkt.len - (offset - s.curPktBegOffsetInStream) := subLen_eq (by omega) hlen
  have hmin : reqLen pkt (offset - s.curPktBegOffsetInStream) ≤
      pkt.len - (offset - s.curPktBegOffsetInStream) := by
    rw [reqLen, hsub]
    exact Nat.min_le_left ..
  unfold reqBytes
  omega

theorem Run.relayBytes_eq (hrun : Run relay indexes s) (h : Requested s pkt offset)
    (hn : n ≤ reqBytes s pkt offset) :
    relayBytes relay ((pkt.offsetInRelay + (offset - s.curPktBegOffsetInStream)) % 2 ^ 64 / 8) n =
      ((logicalStream relay indexes).drop (offset / 8)).take n := by
  have hlast := hrun.atLast
  have hplaced := hrun.placed
  simp only [AtLast, h.curPktInfo] at hlast
  obtain ⟨before, index, rfl, rfl, hbeg⟩ := hlast
  have hlt := hplaced.offset_lt index (by simp)
  have hmod := hplaced.of_append.length_logicalStream relay
  have hwithin := h.reqBytes_le (by dsimp only; omega)
  have hle := h.le_offset
  have hend := h.offset_le
  have hoff := h.offset_mod
  dsimp only at hwithin hend ⊢
  rw [hbeg] at hwithin hle hend ⊢
  obtain ⟨off, rfl⟩ := Nat.exists_eq_add_of_le hle
  rw [hplaced.take_drop_logicalStream relay (by omega) (by omega), Nat.add_sub_cancel_left,
    Nat.mod_eq_of_lt (by omega)]
  congr 1
  omega

theorem Run.len_lt (hrun : Run relay indexes s) (h : Requested s pkt offset) :
    pkt.len < 2 ^ 64 ∧ offset < 2 ^ 64 := by
  have hlast := hrun.atLast
  have hplaced := hrun.placed.streamLen_lt
  have hend := h.offset_le
  simp only [AtLast, h.curPktInfo] at hlast
  obtain ⟨before, index, rfl, rfl, hbeg⟩ := hlast
  rw [streamLen_append] at hplaced
  dsimp only at hend ⊢
  omega

theorem CallOk.of_no_buf {minSize : ℕ} {reply : Reply}
    (hres : (buf relay s offset reply).1 = .noData ∨ (buf relay s offset reply).1 = .tryAgain ∨
      (buf relay s offset reply).1 = .error)
    (hbad : ∀ len, Asks s pkt offset → reply = .ok len → (buf relay s offset reply).1 = .error) :
    CallOk relay indexes s pkt offset minSize reply := by
  have hbuf : ∀ data, (buf relay s offset reply).1 ≠ .buf data := by
    intro data hdata
    rw [hdata] at hres
    rcases hres with hres | hres | hres <;> cases hres
  refine ⟨?_, fun d hd => absurd hd (hbuf d), fun d hd => absurd hd (hbuf d),
    fun d hd => absurd hd (hbuf d), fun d hd => absurd hd (hbuf d),
    fun len hasks hok _ => hbad len hasks hok⟩
  rcases hres with hres | hres | hres <;> rw [hres] <;> exact ⟨nofun, nofun⟩

theorem Requested.buf_ok (relay : ℕ → UInt8) (h : Requested s pkt offset) (hlt : offset < 2 ^ 64)
    (hasks : Asks s pkt offset) {len : ℕ} (hlen : len ≠ 0) :
    (buf relay s offset (.ok len)).1 =
      if reqBytes s pkt offset < len then .overflow
      else .buf (relayBytes relay
        ((pkt.offsetInRelay + (offset - s.curPktBegOffsetInStream)) % 2 ^ 64 / 8) len) := by
  rw [h.buf_of_asks relay hlt hasks, getStreamBytes, if_neg hlen]
  split_ifs <;> rfl

theorem Run.callOk_ok_iff (hrun : Run relay indexes s) (h : Requested s pkt offset)
    (hasks : Asks s pkt offset) {minSize len : ℕ} (hlen : len ≠ 0) :
    CallOk relay indexes s pkt offset minSize (.ok len) ↔
      ReplyOk s pkt offset minSize (.ok len) := by
  obtain ⟨hpkt, hlt⟩ := hrun.len_lt h
  have hres := h.buf_ok relay hlt hasks hlen
  have hwithin := h.reqBytes_le hpkt
  constructor
  · intro hok _ len' hlen' _
    cases hlen'
    have hle : ¬ reqBytes s pkt offset < len := by
      intro hover
      exact hok.safe.2 (by rw [hres, if_pos hover])
    rw [if_neg hle] at hres
    have hmin := hok.minSize_le _ hres
    rw [length_relayBytes] at hmin
    exact ⟨hmin, Nat.le_of_not_lt hle⟩
  · intro hok
    obtain ⟨hmin, hle⟩ := hok hasks len rfl hlen
    rw [if_neg (Nat.not_lt.mpr hle)] at hres
    have hdata : ∀ data, (buf relay s offset (.ok len)).1 = .buf data → data.length = len ∧
        data = ((logicalStream relay indexes).drop (offset / 8)).take len := by
      intro data hd
      rw [hres] at hd
      rw [← Result.buf.inj hd, length_relayBytes]
      exact ⟨rfl, hrun.relayBytes_eq h hle⟩
    refine ⟨by rw [hres]; exact ⟨nofun, nofun⟩, fun data hd => ?_, fun data hd => ?_,
      fun data hd => ?_, fun data hd => ?_, fun len' _ hlen' hbad => ?_⟩
    · exact (hdata data hd).1 ▸ hmin
    · exact (hdata data hd).1 ▸ hle
    · rw [(hdata data hd).1]
      omega
    · rw [(hdata data hd).1]
      exact (hdata data hd).2
    · cases hlen'
      omega

/-- In every run, a call gives the iterator what it owes it exactly if a reply which carries bytes
has at least the minimum size and at most the requested one. -/
theorem Run.callOk_iff (hrun : Run relay indexes s) (h : Requested s pkt offset) (minSize : ℕ)
    (reply : Reply) :
    CallOk relay indexes s pkt offset minSize reply ↔ ReplyOk s pkt offset minSize reply := by
  obtain ⟨hpkt, hlt⟩ := hrun.len_lt h
  by_cases hasks : Asks s pkt offset
  swap
  · refine iff_of_true (.of_no_buf ?_ fun _ ha => absurd ha hasks) fun ha => absurd ha hasks
    rcases h.buf_of_not_asks relay hlt hasks reply with hres | hres
    · exact .inl hres
    · exact .inr (.inl hres)
  have hres := h.buf_of_asks relay hlt hasks reply
  cases reply with
  | ok len =>
    by_cases hzero : len = 0
    · subst hzero
      exact iff_of_true (.of_no_buf (.inr (.inr hres)) fun _ _ _ => hres)
        fun _ len hok hne => absurd (Reply.ok.inj hok).symm hne
    · exact hrun.callOk_ok_iff h hasks hzero
  | err newMetadata newStream =>
    refine iff_of_true (.of_no_buf ?_ nofun) nofun
    cases newMetadata <;> cases newStream <;> simp [hres, getStreamBytes, GetStreamBytesStatus.result]
  | retry | interrupted => exact iff_of_true (.of_no_buf (.inr (.inl hres)) nofun) nofun
  | eof => exact iff_of_true (.of_no_buf (.inl hres) nofun) nofun
  | unknown | failed => exact iff_of_true (.of_no_buf (.inr (.inr hres)) nofun) nofun

end

def fourBytes : Index := ⟨0, 32⟩

theorem run_fourBytes (relay : ℕ → UInt8) :
    Run relay [fourBytes] (State.initial.nextIndex fourBytes) :=
  .nextIndex .initial rfl ⟨by decide, by decide, by decide⟩

theorem requested_fourBytes : Requested (State.initial.nextIndex fourBytes) ⟨0, 32⟩ 0 :=
  ⟨rfl, by decide, by decide, rfl⟩

theorem Run.callOk_iff_fourBytes :
    CallOk (fun _ => 7) [fourBytes] (State.initial.nextIndex fourBytes) ⟨0, 32⟩ 0 2 (.ok 4) ∧
      (buf (fun _ => 7) (State.initial.nextIndex fourBytes) 0 (.ok 4)).1 = .buf [7, 7, 7, 7] := by
  refine ⟨((run_fourBytes _).callOk_iff requested_fourBytes 2 (.ok 4)).mpr ?_, by decide⟩
  intro _ len hlen _
  cases hlen
  decide

/-- A reply of one byte, when two are needed, is a buffer of one byte, and a reply of five bytes is
written past the end of the buffer. -/
theorem buf_uses_bad_reply :
    ∃ s, Run (fun _ => 7) [fourBytes] s ∧ Requested s ⟨0, 32⟩ 0 ∧
      (buf (fun _ => 7) s 0 (.ok 1)).1 = .buf [7] ∧
      ¬ CallOk (fun _ => 7) [fourBytes] s ⟨0, 32⟩ 0 2 (.ok 1) ∧
      (buf (fun _ => 7) s 0 (.ok 5)).1 = .overflow := by
  refine ⟨_, run_fourBytes _, requested_fourBytes, by decide, ?_, by decide⟩
  intro hok
  have hmin := hok.minSize_le [7] (by decide)
  exact absurd hmin (by decide)

end Babeltrace.LiveMedium
