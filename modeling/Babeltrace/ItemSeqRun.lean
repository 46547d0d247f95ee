import Babeltrace.ItemSeqIter
import Babeltrace.Machine
import Babeltrace.Program

/-!
# Runs of the item sequence iterator

The handling of a state may face any medium of a given set `P`, so that answers may change over
time.
-/
namespace Babeltrace.ItemSeq
open Machine Program

/-- A buffer has at least the requested size and holds the bytes at the requested offset, and
there's no data only past the end. -/
def Medium.Over (bytes : List UInt8) (m : Medium) : Prop :=
  ∀ offset minSize, 0 < minSize →
    match m offset minSize with
    | .buf b => minSize ≤ b.length ∧ offset + b.length ≤ bytes.length ∧
        b = (bytes.drop offset).take b.length
    | .noData => bytes.length < offset + minSize
    | .tryAgain => True

/-- The medium never throws `bt2c::TryAgain`. -/
def Medium.Ready (m : Medium) : Prop := ∀ offset minSize, m offset minSize ≠ .tryAgain

/-- All the bytes from the offset but at most `maxSize` of them (at least the requested size) -/
def Medium.ofBytes (bytes : List UInt8) (maxSize : ℕ) : Medium := fun offset minSize =>
  if bytes.length < offset + minSize then .noData
  else .buf ((bytes.drop offset).take (max minSize maxSize))

theorem Medium.ofBytes_ready (bytes : List UInt8) (maxSize : ℕ) :
    (Medium.ofBytes bytes maxSize).Ready := by
  intro offset minSize
  unfold Medium.ofBytes
  split <;> simp

theorem Medium.ofBytes_over (bytes : List UInt8) (maxSize : ℕ) :
    (Medium.ofBytes bytes maxSize).Over bytes := by
  intro offset minSize _
  unfold Medium.ofBytes
  by_cases h : bytes.length < offset + minSize
  · simp [h]
  · simp only [h, if_false, List.length_take, List.length_drop]
    exact ⟨by omega, by omega, by simp [List.take_eq_take_iff]⟩

theorem failWith_never {α : Type} (cause : Err) : Never .tryAgain (failWith cause : DecM α) := by
  intro d d' h
  cases h

theorem readBuf_never (size : ℕ) : Never .tryAgain (readBuf size) := by
  intro d d' h
  simp only [readBuf] at h
  split at h <;> cases h

section
variable {m : Medium} (hm : m.Ready)
include hm

theorem tryHaveData_never (len : ℕ) : Never .tryAgain (tryHaveData m len) := by
  intro d d'
  simp only [tryHaveData]
  split
  · simp
  · split
    · simp
    · simp
    · rename_i h
      exact absurd h (hm _ _)

theorem requireData_never (len : ℕ) : Never .tryAgain (requireData m len) :=
  (tryHaveData_never hm len).bind fun _ => .ite (failWith_never _) (.pure _ _)

theorem requireContentData_never (len : ℕ) : Never .tryAgain (requireContentData m len) :=
  .get_bind fun _ => .ite (.bind (failWith_never _) fun _ => requireData_never hm len)
    (requireData_never hm len)

theorem skipLoop_never (c : Bool) (n : ℕ) : Never .tryAgain (skipLoop m c n) := by
  have hrequire : Never .tryAgain (if c then requireContentData m 1 else requireData m 1) :=
    .ite (requireContentData_never hm 1) (requireData_never hm 1)
  induction n with
  | zero =>
    intro s s'
    unfold skipLoop
    split <;> simp
  | succ n ih =>
    rintro ⟨d, r⟩ s'
    simp only [skipLoop]
    split
    · simp
    · split
      · rename_i e d₁ h
        intro he
        cases he
        exact hrequire d d₁ h
      · split
        · simp
        · exact ih _ _

theorem readFixedLenInt_never (isSigned : Bool) (p : ReadParams) (fc : FixedLenBitArrayFc) :
    Never .tryAgain (readFixedLenInt m isSigned p fc) := by
  have hcheck : Never .tryAgain (checkLastByteOrder fc) := by
    refine .get_bind fun d => ?_
    cases d.lastFixedLenBitArrayFieldByteOrder with
    | none => exact .pure _ _
    | some last => exact .ite (failWith_never _) (.pure _ _)
  have hend (val : ℤ) : Never .tryAgain (do
      modify fun d : Dec => { d with lastFixedLenBitArrayFieldByteOrder := some fc.byteOrder }
      consumeAvailData fc.len
      pure val : DecM ℤ) := .modify_bind _ (.modify_bind _ (.pure _ _))
  refine .bind (requireContentData_never hm fc.len) fun _ => .get_bind fun d => .ite ?_ ?_
  · exact .bind hcheck fun _ => .bind (readBuf_never _) fun _ => hend _
  · exact .bind (readBuf_never _) fun _ => hend _

theorem varLenLoop_never (isSigned : Bool) (n : ℕ) :
    Never .tryAgain (varLenLoop m isSigned n) := by
  have happend (byte : ℕ) : Never .tryAgain (appendVarLenIntByte isSigned byte) :=
    .get_bind fun _ => .ite (.bind (failWith_never _) fun _ => .modify_bind _ fun _ _ h => nomatch h)
      (.modify_bind _ fun _ _ h => nomatch h)
  induction n with
  | zero => exact fun _ _ h => nomatch h
  | succ n ih =>
    exact .bind (requireContentData_never hm 8) fun _ => .bind (readBuf_never 1) fun _ =>
      .bind (happend _) fun _ => .ite (.get_bind fun _ => .modify_bind _ (.pure _ _)) ih

theorem readRawData_never (remaining : ℕ) : Never .tryAgain (readRawData m remaining) := by
  have hread (len : ℕ) : Never .tryAgain (do
      let bytes ← readBuf len
      consumeAvailData (8 * len)
      pure bytes : DecM (List UInt8)) :=
    .bind (readBuf_never len) fun _ => .modify_bind _ (.pure _ _)
  exact .bind (requireContentData_never hm 8) fun _ => .get_bind fun _ =>
    .ite (.bind (failWith_never _) fun _ => hread _) (hread _)

theorem readSubstr_never (cu : CodeUnit) (part : List UInt8) :
    Never .tryAgain (readSubstr m cu part) :=
  .bind (requireContentData_never hm 8) fun _ => .get_bind fun _ => .bind (readBuf_never _) fun _ =>
    .ite (.bind (failWith_never _) fun _ => .modify_bind _ (.pure _ _)) (.modify_bind _ (.pure _ _))

theorem skipPadding_never : Never .tryAgain (skipPadding m false) := by
  intro s s'
  unfold skipPadding
  split
  · simp
  · rename_i e d r hl
    intro he
    cases he
    exact skipLoop_never hm _ _ _ _ hl

theorem handleEndReadPktContent_never : Never .tryAgain (handleEndReadPktContent m) :=
  .modify_bind _ (.get_bind fun _ => .ite (.modify_bind _ (.pure _ _))
    (.ite (.modify_bind _ ((skipPadding_never hm).bind fun _ => .pure _ _))
      (.modify_bind _ (.pure _ _))))

end

/-- What `ItemSeqIter::next()` does once a state is handled -/
def toReply : EStateM.Result Exc Iter Reaction → Reply Iter Item Exc
  | .ok .continue s => .continue s
  | .ok .stop s =>
    match s.curItem with
    | some i => .item i s
    | none => .ended
  | .error .tryAgain s => .again s
  | .error e _ => .failed e

theorem toReply_stop {s : Iter} {i : Item} (h : s.curItem = some i) :
    toReply (.ok .stop s) = .item i s := by
  simp only [toReply, h]

theorem toReply_error {e : Exc} (he : e ≠ .tryAgain) (s : Iter) :
    toReply (.error e s) = .failed e := by
  cases e with
  | tryAgain => exact absurd rfl he
  | error | fault => rfl

def reply (tc : TraceCls) (m : Medium) (s : Iter) : Reply Iter Item Exc :=
  toReply (handleState tc m s)

/-- Calls of `ItemSeqIter::next()` which return `items`, again each time it throws `bt2c::TryAgain`,
and then a last one -/
abbrev Run (tc : TraceCls) (P : Iter → Medium → Prop) (s : Iter) (items : List Item)
    (o : Outcome Exc) : Prop :=
  Machine.Run (reply tc) P s items o

/-! ## A packet which has padding -/

def byteFc (roles : List UIntFieldRole) : Fc :=
  .scalar (.fixedLen .uInt
    { align := 8, len := 8, byteOrder := .big, bitOrder := .lastToFirst } roles [])

/-- The packet context tells the content and total lengths, and an event record is a byte. -/
def paddedTraceCls : TraceCls where
  pktHeaderFc := none
  dataStreamClss := [{
    id := 0
    pktCtxFc := some { align := 8, members := [byteFc [.pktContentLen], byteFc [.pktTotalLen]] }
    eventRecordHeaderFc := none
    commonEventRecordCtxFc := none
    hasDefClkCls := false
    eventRecordClss := [{
      id := 0
      specCtxFc := none
      payloadFc := some { align := 8, members := [byteFc []] } }] }]

/-- A single packet of 32 bits, the last 8 of which are padding, one byte at a time -/
def paddedMedium : Medium := .ofBytes [24, 32, 7, 0] 1

def Item.isPktContentEnd : Item → Bool
  | .pktContentEnd => true
  | _ => false

/-- The run ended and returned a `PktContentEndItem` or not. -/
def endedWithPktContentEnd (b : Bool) (items : List Item) : Outcome Exc → Bool
  | .ended => items.any Item.isPktContentEnd == b
  | _ => false

theorem of_endedWithPktContentEnd {b : Bool} {items : List Item} {o : Outcome Exc}
    (h : endedWithPktContentEnd b items o = true) :
    o = .ended ∧ items.any Item.isPktContentEnd = b := by
  cases o with
  | ended => exact ⟨rfl, by simpa [endedWithPktContentEnd] using h⟩
  | failed e => cases h

theorem paddedMedium_run : ∃ items, Run paddedTraceCls (Alone paddedMedium) {} items .ended ∧
    items.any Item.isPktContentEnd = true := by
  have heval : evalCheck (reply paddedTraceCls) (fun _ _ => paddedMedium) 30 {}
      (endedWithPktContentEnd true) = true := by decide +kernel
  obtain ⟨items, o, hrun, hc⟩ := evalCheck_sound (P := Alone paddedMedium) (fun _ _ => rfl) heval
  obtain ⟨rfl, hend⟩ := of_endedWithPktContentEnd hc
  exact ⟨items, run_iff_runs.mpr hrun, hend⟩

end Babeltrace.ItemSeq
