import Babeltrace.ItemSeqModel

/-!
# Medium, buffer and decoding head of an item sequence iterator

`Dec` holds the members of `ItemSeqIter` which survive from one field to the next. A C++ exception
leaves the members as they are when it's thrown, hence `EStateM`.
-/
namespace Babeltrace.ItemSeq
open Bitfield

inductive Err
  | contentRequired (len remaining : ℕ)
  | dataRequired (len : ℕ)
  | strBlobContentRequired (bytes remaining : ℕ)
  | nullTerminatedStrContentRequired (bytes remaining : ℕ)
  | noDataStreamCls (id : ℕ)
  | noEventRecordCls (id dataStreamClsId : ℕ)
  | totalLenExtraBits (total : ℕ)
  | contentLenGtTotalLen (content total : ℕ)
  | emptyEventRecord
  | noVariantOpt (selVal : ℤ)
  | byteOrderMismatch (last cur : ByteOrder)
  | oversizedVarLenInt
  deriving DecidableEq, Repr

/-- The medium has no data yet, a decoding error at some offset, or undefined behaviour (`fault`):
reading outside the buffer, following a null class pointer, or a failed assertion. -/
inductive Exc
  | tryAgain
  | error (offset : ℕ) (cause : Err)
  | fault
  deriving DecidableEq, Repr

/-- Answer of `Medium::buf()` -/
inductive BufRes
  | buf (bytes : List UInt8)
  | noData
  | tryAgain

/-- The answer to the request for at least `minSize` bytes at the byte offset `offset` -/
abbrev Medium := (offset minSize : ℕ) → BufRes

/-- It wraps when `b` is greater than `a` (only a debug assertion forbids it). -/
def safeSub (a b : ℕ) : ℕ := if b ≤ a then a - b else a + 2 ^ 64 - b

/-- `BT_ALIGN`: it clears the bits of the mask `align - 1`, so that this is a multiple of `align`
when `align` is a power of two. -/
def alignUp (val align : ℕ) : ℕ :=
  val + (align - 1) - ((val + (align - 1)) &&& (align - 1))

theorem le_alignUp (val align : ℕ) : val ≤ alignUp val align := by
  have h : (val + (align - 1)) &&& (align - 1) ≤ align - 1 := Nat.and_le_right
  unfold alignUp
  omega

theorem alignUp_two_pow (val n : ℕ) :
    alignUp val (2 ^ n) = (val + (2 ^ n - 1)) / 2 ^ n * 2 ^ n := by
  have h := Nat.div_add_mod' (val + (2 ^ n - 1)) (2 ^ n)
  rw [alignUp, Nat.and_two_pow_sub_one_eq_mod]
  omega

theorem and_eq_add (x y : ℕ) : x &&& y = 2 * (x / 2 &&& y / 2) + x % 2 * (y % 2) := by
  have hdiv := @Nat.and_div_two x y
  have hmod := @Nat.and_mod_two_eq_one x y
  rw [← hdiv]
  obtain hx | hx := Nat.mod_two_eq_zero_or_one x <;>
    obtain hy | hy := Nat.mod_two_eq_zero_or_one y <;> rw [hx, hy] at hmod ⊢ <;> omega

theorem sub_and_and (x mask : ℕ) : (x - (x &&& mask)) &&& mask = 0 := by
  induction x using Nat.strong_induction_on generalizing mask with
  | _ x ih =>
    obtain rfl | hpos := Nat.eq_zero_or_pos x
    · simp
    · have hle : x / 2 &&& mask / 2 ≤ x / 2 := Nat.and_le_left
      have hand := and_eq_add x mask
      have hhalf : (x - (x &&& mask)) / 2 = x / 2 - (x / 2 &&& mask / 2) := by
        obtain hx | hx := Nat.mod_two_eq_zero_or_one x <;>
          obtain hm | hm := Nat.mod_two_eq_zero_or_one mask <;> rw [hx, hm] at hand <;> omega
      rw [and_eq_add, hhalf, ih (x / 2) (by omega) (mask / 2)]
      obtain hx | hx := Nat.mod_two_eq_zero_or_one x <;>
        obtain hm | hm := Nat.mod_two_eq_zero_or_one mask <;> rw [hx, hm] at hand <;>
        rw [hm] <;> omega

theorem add_and_self {x mask : ℕ} (h : x &&& mask = 0) : (x + mask) &&& mask = mask := by
  induction x using Nat.strong_induction_on generalizing mask with
  | _ x ih =>
    obtain rfl | hpos := Nat.eq_zero_or_pos x
    · simp
    · have hand := and_eq_add x mask
      rw [h] at hand
      have hcarry : x % 2 + mask % 2 < 2 := by
        obtain hx | hx := Nat.mod_two_eq_zero_or_one x
        · omega
        · rw [hx] at hand
          omega
      have hhalf : (x + mask) / 2 = x / 2 + mask / 2 := by omega
      rw [and_eq_add, hhalf, ih (x / 2) (by omega) (by omega)]
      obtain hm | hm := Nat.mod_two_eq_zero_or_one mask <;> rw [hm] <;> omega

theorem alignUp_and (val align : ℕ) : alignUp val align &&& (align - 1) = 0 :=
  sub_and_and _ _

theorem alignUp_alignUp (val align : ℕ) :
    alignUp (alignUp val align) align = alignUp val align := by
  rw [alignUp, add_and_self (alignUp_and val align), Nat.add_sub_cancel]

def infDataLen : ℕ := 2 ^ 64 - 8

structure Dec where
  buf : List UInt8 := []
  bufOffsetInCurPkt : ℕ := 0
  curPktOffsetInItemSeq : ℕ := 0
  headOffsetInCurPkt : ℕ := 0
  lastFixedLenBitArrayFieldByteOrder : Option ByteOrder := none
  curClsId : Option ℕ := none
  curVarLenIntVal : ℕ := 0
  curVarLenIntLen : ℕ := 0
  expectedTotalLen : ℕ := 0
  expectedContentLen : ℕ := 0
  dataStreamInfo : DataStreamInfo := {}
  pktInfo : PktInfo := {}
  eventRecordInfo : EventRecordInfo := {}
  savedKeyVals : ℕ → ℕ := fun _ => 0
  defClkVal : ℕ := 0

abbrev DecM := EStateM Exc Dec

namespace Dec

def remainingPktContentLen (d : Dec) : ℕ := safeSub d.expectedContentLen d.headOffsetInCurPkt

def headOffsetInItemSeq (d : Dec) : ℕ := d.curPktOffsetInItemSeq + d.headOffsetInCurPkt

def remainingBufLen (d : Dec) : ℕ :=
  safeSub (d.bufOffsetInCurPkt + 8 * d.buf.length) d.headOffsetInCurPkt

def alignLen (d : Dec) (align : ℕ) : ℕ :=
  safeSub (alignUp d.headOffsetInCurPkt align) d.headOffsetInCurPkt

/-- The bytes from `_bufAtHead()` to the end of the buffer -/
def bufAtHead (d : Dec) : List UInt8 :=
  d.buf.drop (safeSub d.headOffsetInCurPkt d.bufOffsetInCurPkt / 8)

end Dec

def failWith {α : Type} (cause : Err) : DecM α := fun d =>
  .error (.error d.headOffsetInItemSeq cause) d

/-- `_tryHaveData()` with `_newBuf()` -/
def tryHaveData (m : Medium) (len : ℕ) : DecM Bool := fun d =>
  if len ≤ d.remainingBufLen then .ok true d
  else
    let offset := d.curPktOffsetInItemSeq / 8 + d.headOffsetInCurPkt / 8
    match m offset ((len + 7 + d.headOffsetInCurPkt % 8) / 8) with
    | .buf b => .ok true { d with
        buf := b, bufOffsetInCurPkt := safeSub (8 * offset) d.curPktOffsetInItemSeq }
    | .noData => .ok false d
    | .tryAgain => .error .tryAgain d

def requireData (m : Medium) (len : ℕ) : DecM Unit := do
  if !(← tryHaveData m len) then
    failWith (.dataRequired len)

def requireContentData (m : Medium) (len : ℕ) : DecM Unit := do
  let d ← get
  if d.remainingPktContentLen < len then
    failWith (.contentRequired len d.remainingPktContentLen)
  requireData m len

/-- Reads `size` bytes at `_bufAtHead()`. -/
def readBuf (size : ℕ) : DecM (List UInt8) := fun d =>
  if size ≤ d.bufAtHead.length then .ok (d.bufAtHead.take size) d else .error .fault d

def consumeAvailData (len : ℕ) : DecM Unit :=
  modify fun d => { d with headOffsetInCurPkt := d.headOffsetInCurPkt + len }

/-- The loop of `_skipPadding()`, with `_mRemainingLenToSkip`. The first argument bounds the number
of iterations, which is infinite if the medium returns an empty buffer. -/
def skipLoop (m : Medium) (isContentData : Bool) : ℕ → EStateM Exc (Dec × ℕ) Unit
  | 0 => fun s => if s.2 = 0 then .ok () s else .error .fault s
  | n + 1 => fun (d, remaining) =>
    if remaining = 0 then .ok () (d, remaining)
    else
      match (if isContentData then requireContentData m 1 else requireData m 1) d with
      | .error e d => .error e (d, remaining)
      | .ok () d =>
        let lenToSkip := min remaining d.remainingBufLen
        if lenToSkip = 0 then .error .fault (d, remaining)
        else skipLoop m isContentData n
          ({ d with headOffsetInCurPkt := d.headOffsetInCurPkt + lenToSkip },
            remaining - lenToSkip)

/-! ## Fixed-length bit array fields -/

/-- `lenBits` is 0 for a field which isn't byte-aligned or hasn't a standard length. -/
structure ReadParams where
  lenBits : ℕ
  byteOrder : ByteOrder
  isRev : Bool
  deriving DecidableEq, Repr

def FixedLenBitArrayFc.readParams (fc : FixedLenBitArrayFc) : ReadParams where
  lenBits := if fc.isStd then fc.len else 0
  -- There's a single byte-aligned 8-bit deep type.
  byteOrder := if fc.isStd ∧ fc.len = 8 then .big else fc.byteOrder
  isRev := fc.isRev

/-- `reverseFixedLenIntBitsIfNeeded()` -/
def reverseIfNeeded (isSigned : Bool) (p : ReadParams) (val : ℤ) (len : ℕ) : ℤ :=
  if p.isRev then reverseFixedLenIntBits isSigned val len else val

/-- For a non-zero `LenBitsV` -/
def readStdInt (isSigned : Bool) (p : ReadParams) (bytes : List UInt8) : ℤ :=
  let v := match p.byteOrder with
    | .big => readStdBe (p.lenBits / 8) bytes
    | .little => readStdLe (p.lenBits / 8) bytes
  reverseIfNeeded isSigned p (if isSigned then toSigned p.lenBits v else v) p.lenBits

/-- From the bit `start` of the bytes -/
def readBitInt (isSigned : Bool) (p : ReadParams) (bytes : List UInt8) (start len : ℕ) : ℤ :=
  let v := match p.byteOrder with
    | .big => readBe isSigned bytes start len
    | .little => readLe isSigned bytes start len
  reverseIfNeeded isSigned p (if isSigned then toSigned 64 v else v) len

/-- `_checkLastFixedLenBitArrayFieldByteOrder()` -/
def checkLastByteOrder (fc : FixedLenBitArrayFc) : DecM Unit := do
  let d ← get
  match d.lastFixedLenBitArrayFieldByteOrder with
  | some last =>
    if d.headOffsetInCurPkt % 8 ≠ 0 ∧ fc.byteOrder ≠ last then
      failWith (.byteOrderMismatch last fc.byteOrder)
  | none => pure ()

/-- `_readFixedLenIntField()` once the head is aligned -/
def readFixedLenInt (m : Medium) (isSigned : Bool) (p : ReadParams)
    (fc : FixedLenBitArrayFc) : DecM ℤ := do
  requireContentData m fc.len
  let start := (← get).headOffsetInCurPkt % 8
  let val ←
    if p.lenBits = 0 then do
      checkLastByteOrder fc
      let bytes ← readBuf ((start + fc.len + 7) / 8)
      pure (readBitInt isSigned p bytes start fc.len)
    else do
      let bytes ← readBuf (p.lenBits / 8)
      pure (readStdInt isSigned p bytes)
  modify fun d => { d with lastFixedLenBitArrayFieldByteOrder := some fc.byteOrder }
  consumeAvailData fc.len
  pure val

/-! ## Variable-length integer fields -/

def appendVarLenIntByte (isSigned : Bool) (byte : ℕ) : DecM Unit := do
  let d ← get
  let byteVal := byte % 128
  let newLen := d.curVarLenIntLen + 7
  if 63 < newLen ∧ (128 ≤ byte ∨ (isSigned ∧ ¬ (byteVal = 0 ∨ byteVal = 0x7f)) ∨
      (!isSigned ∧ byteVal ≠ 1)) then
    failWith .oversizedVarLenInt
  consumeAvailData 8
  modify fun d => { d with
    curVarLenIntVal := d.curVarLenIntVal ||| (byteVal <<< d.curVarLenIntLen % 2 ^ 64)
    curVarLenIntLen := if 63 < newLen then 64 else newLen }

/-- `VarLenIntFieldVal<SignednessV>::val()` -/
def varLenIntVal (isSigned : Bool) (len val : ℕ) : ℤ :=
  if isSigned then if len = 64 then toSigned 64 val else toSigned len (val % 2 ^ len) else val

/-- The tenth byte is the last one. -/
def varLenFuel (d : Dec) : ℕ := 10 - d.curVarLenIntLen / 7

/-- The loop of `_handleCommonVarLenIntFieldState()`: the value and its length -/
def varLenLoop (m : Medium) (isSigned : Bool) : ℕ → DecM (ℤ × ℕ)
  | 0 => fun d => .error .fault d
  | n + 1 => do
    requireContentData m 8
    let bytes ← readBuf 1
    let byte := (bytes.headD 0).toNat
    appendVarLenIntByte isSigned byte
    if byte < 128 then do
      let d ← get
      modify fun d => { d with curVarLenIntVal := 0, curVarLenIntLen := 0 }
      pure (varLenIntVal isSigned d.curVarLenIntLen d.curVarLenIntVal, d.curVarLenIntLen)
    else
      varLenLoop m isSigned n

/-! ## Raw data -/

/-- `part` is the incomplete code unit. Returns the number of bytes up to the end of the null
codepoint, if any, and the new code unit. -/
def findNullCp (cu : CodeUnit) : List UInt8 → List UInt8 → Option ℕ × List UInt8
  | part, [] => (none, part)
  | part, b :: bytes =>
    if (part ++ [b]).length = cu.len then
      if (part ++ [b]).all (· = 0) then (some 1, part ++ [b])
      else ((findNullCp cu [] bytes).1.map (· + 1), (findNullCp cu [] bytes).2)
    else ((findNullCp cu (part ++ [b]) bytes).1.map (· + 1), (findNullCp cu (part ++ [b]) bytes).2)

/-- `remaining` is `top.len - top.elemIndex`; returns the bytes of the raw data item. -/
def readRawData (m : Medium) (remaining : ℕ) : DecM (List UInt8) := do
  requireContentData m 8
  let d ← get
  let len := min (d.remainingBufLen / 8) remaining
  if d.remainingPktContentLen < 8 * len then
    failWith (.strBlobContentRequired len d.remainingPktContentLen)
  let bytes ← readBuf len
  consumeAvailData (8 * len)
  pure bytes

/-- The bytes of the raw data item, whether it ends with a null codepoint, and the new code unit -/
def readSubstr (m : Medium) (cu : CodeUnit) (part : List UInt8) :
    DecM (List UInt8 × Bool × List UInt8) := do
  requireContentData m 8
  let d ← get
  let bytes ← readBuf (d.remainingBufLen / 8)
  let (found, part) := findNullCp cu part bytes
  let len := found.getD bytes.length
  if d.remainingPktContentLen < 8 * len then
    failWith (.nullTerminatedStrContentRequired len d.remainingPktContentLen)
  consumeAvailData (8 * len)
  pure (bytes.take len, found.isSome, part)

/-! ## Values which fields leave behind -/

def saveKeyVal (indexes : List ℕ) (val : ℤ) (d : Dec) : Dec :=
  { d with savedKeyVals := fun i => if i ∈ indexes then toU64 val else d.savedKeyVals i }

def Dec.savedKeyVal (d : Dec) (isSigned : Bool) (index : ℕ) : ℤ :=
  if isSigned then toSigned 64 (d.savedKeyVals index) else d.savedKeyVals index

def updateDefClkVal (cur val len : ℕ) : ℕ :=
  if len = 64 then val
  else
    let mask := 2 ^ len - 1
    let cur := if val < cur &&& mask then (cur + (mask + 1)) % 2 ^ 64 else cur
    (cur - (cur &&& mask)) ||| val

/-- What `_handleUIntFieldRole()` does to the decoded values -/
def handleUIntFieldRole (role : UIntFieldRole) (len val : ℕ) (d : Dec) : Dec :=
  match role with
  | .pktMagicNumber => d
  | .dataStreamClsId => { d with curClsId := some val }
  | .eventRecordClsId => { d with curClsId := some val }
  | .dataStreamId => { d with dataStreamInfo := { d.dataStreamInfo with id := some val } }
  | .pktTotalLen => { d with
      expectedTotalLen := val, pktInfo := { d.pktInfo with expectedTotalLen := some val } }
  | .pktContentLen => { d with
      expectedContentLen := val, pktInfo := { d.pktInfo with expectedContentLen := some val } }
  | .defClkTs => { d with defClkVal := updateDefClkVal d.defClkVal val len }
  | .pktEndDefClkTs => { d with pktInfo := { d.pktInfo with endDefClkVal := some val } }
  | .discEventRecordCounterSnap =>
    { d with pktInfo := { d.pktInfo with discErCounterSnap := some val } }
  | .pktSeqNum => { d with pktInfo := { d.pktInfo with seqNum := some val } }

/-! ## Packet and event record boundaries -/

def resetForNewPkt (d : Dec) : Dec :=
  { d with
    curClsId := none
    lastFixedLenBitArrayFieldByteOrder := none
    defClkVal := 0
    headOffsetInCurPkt := 0
    dataStreamInfo := {}
    pktInfo := {}
    eventRecordInfo := {}
    expectedTotalLen := infDataLen
    expectedContentLen := infDataLen
    curVarLenIntVal := 0
    curVarLenIntLen := 0 }

/-- `_handleSetDataStreamInfoItemState()` up to its item -/
def setDataStreamInfo (tc : TraceCls) : DecM Unit := do
  match (← get).curClsId with
  | some id =>
    match tc.find id with
    | none => failWith (.noDataStreamCls id)
    | some cls => modify fun d => { d with
        dataStreamInfo := { d.dataStreamInfo with cls := some cls }, curClsId := none }
  | none =>
    match tc.dataStreamClss with
    | [cls] => modify fun d => { d with
        dataStreamInfo := { d.dataStreamInfo with cls := some cls } }
    | _ => pure ()

def Dec.withPktLens (d : Dec) : Dec :=
  let total := if d.expectedTotalLen = infDataLen then d.expectedContentLen else d.expectedTotalLen
  { d with
    expectedTotalLen := total
    expectedContentLen :=
      if d.expectedContentLen = infDataLen then total else d.expectedContentLen }

/-- `_handleSetPktInfoItemState()` up to its item -/
def setPktInfo : DecM Unit := do
  modify Dec.withPktLens
  let d ← get
  if d.expectedTotalLen % 8 ≠ 0 then
    failWith (.totalLenExtraBits d.expectedTotalLen)
  else if d.expectedTotalLen < d.expectedContentLen then
    failWith (.contentLenGtTotalLen d.expectedContentLen d.expectedTotalLen)
  else if d.dataStreamInfo.cls.any DataStreamCls.hasDefClkCls then
    modify fun d => { d with pktInfo := { d.pktInfo with beginDefClkVal := some d.defClkVal } }

def setEventRecordCls (cls : DataStreamCls) : DecM Unit := do
  match (← get).curClsId with
  | some id =>
    match cls.find id with
    | none => failWith (.noEventRecordCls id cls.id)
    | some erCls => modify fun d => { d with
        eventRecordInfo := { d.eventRecordInfo with cls := some erCls } }
  | none =>
    match cls.eventRecordClss with
    | [erCls] => modify fun d => { d with
        eventRecordInfo := { d.eventRecordInfo with cls := some erCls } }
    | _ => pure ()

/-- Returns the current data stream class. -/
def setEventRecordInfo : DecM DataStreamCls := do
  match (← get).dataStreamInfo.cls with
  | none => throw .fault
  | some cls =>
    setEventRecordCls cls
    if cls.hasDefClkCls then
      modify fun d => { d with
        eventRecordInfo := { d.eventRecordInfo with defClkVal := some d.defClkVal } }
    pure cls

/-- What remains of the buffer belongs to the next packet. -/
def endReadPkt (d : Dec) : Dec :=
  { d with
    curPktOffsetInItemSeq := d.headOffsetInItemSeq
    headOffsetInCurPkt := 0
    buf := if d.expectedTotalLen = infDataLen then []
      else d.buf.drop (safeSub d.expectedTotalLen d.bufOffsetInCurPkt / 8)
    bufOffsetInCurPkt := 0 }

end Babeltrace.ItemSeq
