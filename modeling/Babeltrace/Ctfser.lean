import Babeltrace.BitfieldSpec
import Babeltrace.ItemSeqData
import Babeltrace.Program

/-!
# CTF serializer

`ctfser/ctfser.c` and `ctfser/ctfser.h`. The current packet is mapped from `mmapOffset` on. The
system calls succeed: a function either returns 0 or doesn't return.
-/
namespace Babeltrace.Ctfser
open Bitfield UnitBits Excepts
open ItemSeq (ByteOrder alignUp le_alignUp alignUp_and)

/-- How a function may not return -/
inductive Stop
  /-- `bt_common_abort()` -/
  | abort
  /-- Access to a byte which isn't mapped -/
  | unmapped
  deriving DecidableEq, Repr

structure Host where
  byteOrder : ByteOrder
  pageSize : ℕ
  pageSize_pos : 0 < pageSize

theorem Host.le_increment (host : Host) : 64 ≤ 64 * host.pageSize :=
  Nat.le_mul_of_pos_right 64 host.pageSize_pos

/-- `struct bt_ctfser` -/
structure Ser where
  file : Mem
  mmapOffset : ℕ
  prevPacketSizeBytes : ℕ
  streamSizeBytes : ℕ
  curPacketSizeBytes : ℕ
  offsetInCurPacketBits : ℕ

def Ser.mem (ser : Ser) : Mem := fun i => ser.file (ser.mmapOffset + i)

def Ser.setMem (ser : Ser) (mem : Mem) : Ser :=
  { ser with file := fun i => if i < ser.mmapOffset then ser.file i else mem (i - ser.mmapOffset) }

@[simp] theorem Ser.mem_setMem (ser : Ser) (mem : Mem) : (ser.setMem mem).mem = mem := by
  funext i
  simp only [Ser.mem, Ser.setMem, Nat.add_sub_cancel_left, if_neg (Nat.not_lt.mpr (Nat.le_add_right
    ser.mmapOffset i))]

/-- The memory changes up to the bit `fin`. -/
def Ser.store (ser : Ser) (fin : ℕ) (mem : Mem) : Except Stop Ser :=
  if fin ≤ 8 * ser.curPacketSizeBytes then .ok (ser.setMem mem) else .error .unmapped

def increaseCurPacketSize (host : Host) (ser : Ser) : Ser :=
  { ser with curPacketSizeBytes := ser.curPacketSizeBytes + host.pageSize * 8 }

def openPacket (host : Host) (ser : Ser) : Ser :=
  { ser with
    mmapOffset := ser.mmapOffset + ser.prevPacketSizeBytes
    prevPacketSizeBytes := 0
    curPacketSizeBytes := host.pageSize * 8
    offsetInCurPacketBits := 0 }

def hasSpaceLeft (ser : Ser) (sizeBits : ℕ) : Bool :=
  ser.offsetInCurPacketBits + sizeBits ≤ 8 * ser.curPacketSizeBytes

def reserve (host : Host) (sizeBits : ℕ) (ser : Ser) : Ser :=
  if hasSpaceLeft ser sizeBits then ser else increaseCurPacketSize host ser

def incrOffset (sizeBits : ℕ) (ser : Ser) : Ser :=
  { ser with offsetInCurPacketBits := ser.offsetInCurPacketBits + sizeBits }

def alignOffsetInCurrentPacket (host : Host) (alignmentBits : ℕ) (ser : Ser) : Ser :=
  let alignSizeBits := alignUp ser.offsetInCurPacketBits alignmentBits - ser.offsetInCurPacketBits
  incrOffset alignSizeBits (reserve host alignSizeBits ser)

/-- `GUINTn_SWAP_LE_BE()` for an integer of `n` bytes -/
def swapBytes (n v : ℕ) : ℕ :=
  Nat.ofBits fun i : Fin (8 * n) => v.testBit (8 * (n - 1 - i / 8) + i % 8)

def byteRank (byteOrder : ByteOrder) (n i : ℕ) : ℕ :=
  match byteOrder with
  | .little => i
  | .big => n - 1 - i

/-- The byte `i` of an integer of `n` bytes in memory -/
def nativeByte (byteOrder : ByteOrder) (n v i : ℕ) : UInt8 :=
  (v >>> (8 * byteRank byteOrder n i)).toUInt8

/-- `memcpy()` of an integer of `n` bytes to the unit `u` -/
def copyInt (byteOrder : ByteOrder) (n v u : ℕ) (mem : Mem) : Mem := fun i =>
  if u ≤ i ∧ i < u + n then nativeByte byteOrder n v (i - u) else mem i

/-- `_bt_ctfser_write_byte_aligned_unsigned_int_no_align()` and the signed one -/
def writeByteAlignedIntNoAlign (host : Host) (value sizeBits : ℕ) (byteOrder : ByteOrder)
    (ser : Ser) : Except Stop Ser :=
  if sizeBits ∈ [8, 16, 32, 64] then do
    let v := value % 2 ^ sizeBits
    let v := if byteOrder ≠ host.byteOrder then swapBytes (sizeBits / 8) v else v
    let ser ← ser.store (ser.offsetInCurPacketBits + sizeBits)
      (copyInt host.byteOrder (sizeBits / 8) v (ser.offsetInCurPacketBits / 8) ser.mem)
    return incrOffset sizeBits ser
  else .error .abort

def writeBits (isSigned : Bool) (byteOrder : ByteOrder) (mem : Mem) (start length v : ℕ) : Mem :=
  match byteOrder with
  | .little => writeLe isSigned mem start length v
  | .big => writeBe isSigned mem start length v

/-- `bt_ctfser_write_unsigned_int()` and `bt_ctfser_write_signed_int()`; `value` is the 64-bit
pattern. -/
def writeInt (host : Host) (isSigned : Bool) (value alignmentBits sizeBits : ℕ)
    (byteOrder : ByteOrder) (ser : Ser) : Except Stop Ser := do
  let ser := reserve host sizeBits (alignOffsetInCurrentPacket host alignmentBits ser)
  if alignmentBits % 8 = 0 ∧ sizeBits % 8 = 0 then
    writeByteAlignedIntNoAlign host value sizeBits byteOrder ser
  else
    let ser ← ser.store (ser.offsetInCurPacketBits + sizeBits)
      (writeBits isSigned byteOrder ser.mem ser.offsetInCurPacketBits sizeBits value)
    return incrOffset sizeBits ser

def writeUnsignedInt (host : Host) (value : ℕ) : ℕ → ℕ → ByteOrder → Ser → Except Stop Ser :=
  writeInt host false (value % 2 ^ 64)

def writeSignedInt (host : Host) (value : ℤ) : ℕ → ℕ → ByteOrder → Ser → Except Stop Ser :=
  writeInt host true (toU64 value)

/-! ## What a write changes -/

def fieldAddr (byteOrder : ByteOrder) (start size k : ℕ) : ℕ × ℕ :=
  match byteOrder with
  | .little => addrLe start k
  | .big => addrBe (start + size) k

def Ser.Mapped (ser : Ser) : Prop := ser.offsetInCurPacketBits ≤ 8 * ser.curPacketSizeBytes

structure Ser.SamePacket (ser ser' : Ser) : Prop where
  mmapOffset : ser'.mmapOffset = ser.mmapOffset
  prevPacketSizeBytes : ser'.prevPacketSizeBytes = ser.prevPacketSizeBytes
  streamSizeBytes : ser'.streamSizeBytes = ser.streamSizeBytes
  file : ∀ i < ser.mmapOffset, ser'.file i = ser.file i
  mapped : ser'.Mapped

/-- The integer is written at the bit `start` of the packet. -/
structure Ser.Wrote (ser ser' : Ser) (byteOrder : ByteOrder) (start size value : ℕ) : Prop
    extends ser.SamePacket ser' where
  offset : ser'.offsetInCurPacketBits = start + size
  stored : Stored ser.mem ser'.mem (fieldAddr byteOrder start size) value.testBit 0 size

section
variable {host : Host} {isSigned : Bool} {byteOrder : ByteOrder} {ser ser' : Ser} {mem : Mem}
  {v n u i : ℕ}

theorem testBit_swapBytes {b : ℕ} (hi : i < n) (hb : b < 8) :
    (swapBytes n v).testBit (8 * i + b) = v.testBit (8 * (n - 1 - i) + b) := by
  rw [swapBytes, Nat.testBit_ofBits_lt _ _ (by omega)]
  have hdiv : (8 * i + b) / 8 = i := by omega
  have hmod : (8 * i + b) % 8 = b := by omega
  simp only [hdiv, hmod]

theorem byteRank_lt (byteOrder : ByteOrder) (hi : i < n) : byteRank byteOrder n i < n := by
  cases byteOrder <;> simp only [byteRank] <;> omega

theorem byteRank_byteRank (byteOrder : ByteOrder) (hi : i < n) :
    byteRank byteOrder n (byteRank byteOrder n i) = i := by
  cases byteOrder <;> simp only [byteRank]
  omega

theorem bitOf_nativeByte (hi : i < n) {b : ℕ} (hb : b < 8) :
    bitOf (nativeByte host.byteOrder n
      (if byteOrder ≠ host.byteOrder then swapBytes n v else v) i) b =
      v.testBit (8 * byteRank byteOrder n i + b) := by
  have hsub : n - 1 - (n - 1 - i) = i := by omega
  have hlt : n - 1 - i < n := by omega
  simp only [nativeByte, bitOf_toUInt8, decide_eq_true hb, Bool.true_and, Nat.testBit_shiftRight]
  cases byteOrder <;> cases host.byteOrder <;>
    simp [byteRank, testBit_swapBytes hi hb, testBit_swapBytes hlt hb, hsub]

theorem fieldAddr_bytes {start k : ℕ} (hstart : start % 8 = 0) (hk : k < 8 * n) :
    fieldAddr byteOrder start (8 * n) k =
      (start / 8 + byteRank byteOrder n (k / 8), k % 8) := by
  cases byteOrder with
  | little =>
    rw [fieldAddr, addrLe, byteRank, Prod.mk.injEq]
    omega
  | big =>
    rw [fieldAddr, addrBe, byteRank, Prod.mk.injEq]
    omega

theorem stored_copyInt {start : ℕ} (hstart : start % 8 = 0) :
    Stored mem (copyInt host.byteOrder n
      (if byteOrder ≠ host.byteOrder then swapBytes n v else v) (start / 8) mem)
      (fieldAddr byteOrder start (8 * n)) v.testBit 0 (8 * n) where
  stored k _ hk := by
    have hlt := byteRank_lt byteOrder (show k / 8 < n by omega)
    rw [fieldAddr_bytes hstart hk, bitAt, copyInt, if_pos ⟨by omega, by omega⟩,
      Nat.add_sub_cancel_left, bitOf_nativeByte hlt (by omega),
      byteRank_byteRank byteOrder (by omega), Nat.div_add_mod]
  kept a ha := by
    obtain ⟨unit, b⟩ := a
    simp only [bitAt, copyInt]
    split
    · rename_i hunit
      by_cases hb : b < 8
      · -- The bit would be one of those of the field.
        have hlt := byteRank_lt byteOrder (show unit - start / 8 < n by omega)
        refine absurd ?_ (ha (8 * byteRank byteOrder n (unit - start / 8) + b) (Nat.zero_le _)
          (by omega))
        have hdiv : (8 * byteRank byteOrder n (unit - start / 8) + b) / 8 =
            byteRank byteOrder n (unit - start / 8) := by omega
        rw [fieldAddr_bytes hstart (by omega), hdiv, byteRank_byteRank byteOrder (by omega),
          Prod.mk.injEq]
        omega
      · rw [bitOf_of_ge (Nat.le_of_not_lt hb), bitOf_of_ge (Nat.le_of_not_lt hb)]
    · rfl

theorem stored_writeBits {length : ℕ} (hlength : 0 < length) (hle : length ≤ 64) (start : ℕ) :
    Stored mem (writeBits isSigned byteOrder mem start length v)
      (fieldAddr byteOrder start length) v.testBit 0 length := by
  cases byteOrder with
  | little => exact stored_writeLe hlength hle start
  | big => exact stored_writeBe hlength hle start

theorem Ser.SamePacket.refl (h : ser.Mapped) : ser.SamePacket ser := ⟨rfl, rfl, rfl, fun _ _ => rfl, h⟩

theorem Ser.SamePacket.trans {ser'' : Ser} (h : ser.SamePacket ser') (h' : ser'.SamePacket ser'') :
    ser.SamePacket ser'' where
  mmapOffset := h'.mmapOffset.trans h.mmapOffset
  prevPacketSizeBytes := h'.prevPacketSizeBytes.trans h.prevPacketSizeBytes
  streamSizeBytes := h'.streamSizeBytes.trans h.streamSizeBytes
  file i hi := (h'.file i (h.mmapOffset ▸ hi)).trans (h.file i hi)
  mapped := h'.mapped

theorem mapped_openPacket (host : Host) (ser : Ser) : (openPacket host ser).Mapped := Nat.zero_le _

theorem hasSpaceLeft_iff {size : ℕ} : hasSpaceLeft ser size = true ↔
    ser.offsetInCurPacketBits + size ≤ 8 * ser.curPacketSizeBytes := decide_eq_true_iff

theorem reserve_spec (h : ser.Mapped) {size : ℕ} (hsize : size ≤ 64 * host.pageSize) :
    ser.SamePacket (reserve host size ser) ∧ (reserve host size ser).mem = ser.mem ∧
      (reserve host size ser).offsetInCurPacketBits = ser.offsetInCurPacketBits ∧
      hasSpaceLeft (reserve host size ser) size = true := by
  unfold reserve
  split
  · rename_i hspace
    exact ⟨.refl h, rfl, rfl, hspace⟩
  · have hmapped : ser.offsetInCurPacketBits ≤ 8 * ser.curPacketSizeBytes := h
    have hspace : ser.offsetInCurPacketBits + size ≤
        8 * (ser.curPacketSizeBytes + host.pageSize * 8) := by omega
    refine ⟨⟨rfl, rfl, rfl, fun _ _ => rfl, ?_⟩, rfl, rfl, hasSpaceLeft_iff.mpr hspace⟩
    exact Nat.le_trans (Nat.le_add_right _ _) hspace

theorem alignUp_sub_lt {alignment : ℕ} (ha : 0 < alignment) (val : ℕ) :
    alignUp val alignment - val < alignment := by
  unfold alignUp
  omega

theorem alignUp_mod_eight {alignment : ℕ} (ha : 0 < alignment) (h : alignment % 8 = 0) (val : ℕ) :
    alignUp val alignment % 8 = 0 := by
  -- the three low bits of the mask are set
  have hmask : (alignment - 1) &&& 7 = 7 := by
    rw [Nat.and_two_pow_sub_one_eq_mod _ 3]
    omega
  calc alignUp val alignment % 8
      = alignUp val alignment &&& 7 := (Nat.and_two_pow_sub_one_eq_mod _ 3).symm
    _ = alignUp val alignment &&& (alignment - 1) &&& 7 := by rw [Nat.and_assoc, hmask]
    _ = 0 := by rw [alignUp_and, Nat.zero_and]

theorem alignOffsetInCurrentPacket_spec (h : ser.Mapped) {alignment : ℕ} (ha : 0 < alignment)
    (hle : alignment ≤ 64 * host.pageSize) :
    ser.SamePacket (alignOffsetInCurrentPacket host alignment ser) ∧
      (alignOffsetInCurrentPacket host alignment ser).mem = ser.mem ∧
      (alignOffsetInCurrentPacket host alignment ser).offsetInCurPacketBits =
        alignUp ser.offsetInCurPacketBits alignment := by
  have hlt := alignUp_sub_lt ha ser.offsetInCurPacketBits
  have hval := le_alignUp ser.offsetInCurPacketBits alignment
  obtain ⟨hsame, hmem, hoffset, hspace⟩ := @reserve_spec host ser h
    (alignUp ser.offsetInCurPacketBits alignment - ser.offsetInCurPacketBits) (by omega)
  refine ⟨⟨hsame.mmapOffset, hsame.prevPacketSizeBytes, hsame.streamSizeBytes, hsame.file,
    hasSpaceLeft_iff.mp hspace⟩, hmem, ?_⟩
  change (reserve host _ ser).offsetInCurPacketBits + _ = _
  rw [hoffset]
  omega

theorem store_spec {fin : ℕ} (h : ser.Mapped) (mem : Mem) (hfin : fin ≤ 8 * ser.curPacketSizeBytes) :
    ser.store fin mem = .ok (ser.setMem mem) ∧ ser.SamePacket (ser.setMem mem) :=
  ⟨if_pos hfin, rfl, rfl, rfl, fun _ hi => if_pos hi, h⟩

theorem wrote_of_stored {start size : ℕ} (h : ser.Mapped) (hoffset : ser.offsetInCurPacketBits = start)
    (hspace : hasSpaceLeft ser size = true)
    (hstored : Stored ser.mem mem (fieldAddr byteOrder start size) v.testBit 0 size) :
    ser.Wrote (incrOffset size (ser.setMem mem)) byteOrder start size v where
  toSamePacket := by
    have hsame := (store_spec h mem (hasSpaceLeft_iff.mp hspace)).2
    exact ⟨hsame.mmapOffset, hsame.prevPacketSizeBytes, hsame.streamSizeBytes, hsame.file,
      hasSpaceLeft_iff.mp hspace⟩
  offset := congrArg (· + size) hoffset
  stored := by
    have hmem : (incrOffset size (ser.setMem mem)).mem = mem := ser.mem_setMem mem
    rwa [hmem]

/-- `bt_common_abort()` is called for such integers. -/
def Unsupported (alignment size : ℕ) : Prop :=
  alignment % 8 = 0 ∧ size % 8 = 0 ∧ size ∉ [8, 16, 32, 64]

theorem writeByteAlignedIntNoAlign_wrote {start size : ℕ} (h : ser.Mapped)
    (hoffset : ser.offsetInCurPacketBits = start) (hstart : start % 8 = 0)
    (hsize : size ∈ [8, 16, 32, 64]) (hspace : hasSpaceLeft ser size = true) :
    ∃ ser', writeByteAlignedIntNoAlign host v size byteOrder ser = .ok ser' ∧
      ser.Wrote ser' byteOrder start size v := by
  have hsize' : 8 * (size / 8) = size := by
    simp only [List.mem_cons, List.not_mem_nil, or_false] at hsize
    omega
  have hcopy := @stored_copyInt host byteOrder ser.mem (v % 2 ^ size) (size / 8) start hstart
  rw [hsize'] at hcopy
  have hstored : Stored ser.mem _ (fieldAddr byteOrder start size) v.testBit 0 size :=
    ⟨fun k hk hk' => by
      rw [hcopy.stored k hk hk', Nat.testBit_mod_two_pow, decide_eq_true hk', Bool.true_and],
    hcopy.kept⟩
  refine ⟨_, ?_, wrote_of_stored h hoffset hspace hstored⟩
  rw [writeByteAlignedIntNoAlign, if_pos hsize]
  dsimp only
  rw [hoffset, (store_spec h _ (hoffset ▸ hasSpaceLeft_iff.mp hspace)).1]
  rfl

theorem writeInt_wrote {alignment size : ℕ} (h : ser.Mapped) (ha : 0 < alignment)
    (hale : alignment ≤ 64 * host.pageSize) (hsize : 0 < size) (hsle : size ≤ 64)
    (hsupported : ¬Unsupported alignment size) :
    ∃ ser', writeInt host isSigned v alignment size byteOrder ser = .ok ser' ∧
      ser.Wrote ser' byteOrder (alignUp ser.offsetInCurPacketBits alignment) size v := by
  obtain ⟨hsame, hmem, hoffset⟩ := @alignOffsetInCurrentPacket_spec host ser h alignment ha hale
  obtain ⟨hsame', hmem', hoffset', hspace⟩ := @reserve_spec host _ hsame.mapped size
    (hsle.trans host.le_increment)
  rw [hmem] at hmem'
  rw [hoffset] at hoffset'
  -- What's known about the reservation suffices.
  unfold writeInt
  dsimp only
  generalize reserve host size (alignOffsetInCurrentPacket host alignment ser) = ser₁ at *
  have hsame₁ := hsame.trans hsame'
  have hlift {ser'} (hwrote : ser₁.Wrote ser' byteOrder
      (alignUp ser.offsetInCurPacketBits alignment) size v) :
      ser.Wrote ser' byteOrder (alignUp ser.offsetInCurPacketBits alignment) size v :=
    ⟨hsame₁.trans hwrote.toSamePacket, hwrote.offset, hmem' ▸ hwrote.stored⟩
  split
  · rename_i hbytes
    have hmem64 : size ∈ [8, 16, 32, 64] := by
      by_contra hne
      exact hsupported ⟨hbytes.1, hbytes.2, hne⟩
    have hstart : alignUp ser.offsetInCurPacketBits alignment % 8 = 0 :=
      alignUp_mod_eight ha hbytes.1 _
    obtain ⟨ser', hok, hwrote⟩ := @writeByteAlignedIntNoAlign_wrote host byteOrder ser₁ v
      _ size hsame'.mapped hoffset' hstart hmem64 hspace
    exact ⟨ser', hok, hlift hwrote⟩
  · have hwrote := wrote_of_stored hsame'.mapped hoffset' hspace
      (@stored_writeBits isSigned byteOrder ser₁.mem v size hsize hsle _)
    refine ⟨_, ?_, hlift hwrote⟩
    rw [hoffset', (store_spec hsame'.mapped _ (hoffset' ▸ hasSpaceLeft_iff.mp hspace)).1]
    rfl

theorem writeInt_unsupported {alignment size : ℕ} (h : Unsupported alignment size) :
    writeInt host isSigned v alignment size byteOrder ser = .error .abort := by
  unfold writeInt
  dsimp only
  rw [if_pos ⟨h.1, h.2.1⟩, writeByteAlignedIntNoAlign, if_neg h.2.2]

end

end Babeltrace.Ctfser
