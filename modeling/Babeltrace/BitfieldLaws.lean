import Babeltrace.CtfserRoundTrip

/-!
# Laws of the bit field macros

What's written is read back, the other bits are kept, and disjoint writes commute.
-/
namespace Babeltrace.Bitfield
open UnitBits Ctfser
open ItemSeq (ByteOrder)

structure BitField where
  byteOrder : ByteOrder
  start : ℕ
  length : ℕ
  length_pos : 0 < length
  length_le : length ≤ 64

namespace BitField

def Fits (f : BitField) (p : List UInt8) : Prop := f.start + f.length ≤ 8 * p.length

/-- The address of the bit `k` -/
def addr (f : BitField) (k : ℕ) : ℕ × ℕ := fieldAddr f.byteOrder f.start f.length k

def Covers (f : BitField) (a : ℕ × ℕ) : Prop := ∃ k < f.length, f.addr k = a

def Disjoint (f g : BitField) : Prop := ∀ a, f.Covers a → ¬g.Covers a

def Apart (f g : BitField) : Prop :=
  f.byteOrder = g.byteOrder ∧ (f.start + f.length ≤ g.start ∨ g.start + g.length ≤ f.start)

def writeMem (f : BitField) (isSigned : Bool) (v : UInt64) (mem : Mem) : Mem :=
  writeBits isSigned f.byteOrder mem f.start f.length v.toNat

def write (f : BitField) (isSigned : Bool) (v : UInt64) (p : List UInt8) : List UInt8 :=
  (List.range p.length).map (f.writeMem isSigned v (memOf p))

/-- `_v` at the end of `_bt_bitfield_read_le` or `_bt_bitfield_read_be` -/
def readRaw (f : BitField) (isSigned : Bool) (p : List UInt8) : ℕ :=
  match f.byteOrder with
  | .little => readLe isSigned p f.start f.length
  | .big => readBe isSigned p f.start f.length

def read (f : BitField) (isSigned : Bool) (p : List UInt8) : ℤ :=
  if isSigned then toSigned 64 (f.readRaw isSigned p) else f.readRaw isSigned p

section
variable {f g : BitField} {isSigned isSigned' : Bool} {v w : UInt64} {mem : Mem} {p p' : List UInt8}

theorem stored_writeMem (f : BitField) (isSigned : Bool) (v : UInt64) (mem : Mem) :
    Stored mem (f.writeMem isSigned v mem) f.addr v.toNat.testBit 0 f.length :=
  stored_writeBits f.length_pos f.length_le f.start

theorem loads_readRaw (f : BitField) (isSigned : Bool) (p : List UInt8) :
    Loads (fieldBit isSigned (memOf p) f.addr f.length) 0 (f.readRaw isSigned p) := by
  obtain ⟨byteOrder, start, length, hpos, hle⟩ := f
  cases byteOrder with
  | little => exact loads_readLe hpos
  | big => exact loads_readBe hpos

theorem mem_ext {mem mem' : Mem} (h : ∀ a, bitAt mem a = bitAt mem' a) : mem = mem' := by
  funext i
  apply UInt8.toNat_inj.mp
  exact Nat.eq_of_testBit_eq fun b => h (i, b)

theorem addr_fst_lt (h : f.Fits p) {k : ℕ} (hk : k < f.length) : (f.addr k).1 < p.length := by
  obtain ⟨byteOrder, start, length, hpos, hle⟩ := f
  rw [Fits] at h
  cases byteOrder <;> simp only [addr, fieldAddr, addrLe, addrBe] at h hk ⊢ <;> omega

theorem memOf_write (h : f.Fits p) :
    memOf (f.write isSigned v p) = f.writeMem isSigned v (memOf p) := by
  funext i
  rw [memOf, write, List.getD_eq_getElem?_getD, List.getElem?_map]
  by_cases hi : i < p.length
  · rw [List.getElem?_range hi]
    rfl
  · have hout : f.writeMem isSigned v (memOf p) i = memOf p i := by
      apply UInt8.toNat_inj.mp
      refine Nat.eq_of_testBit_eq fun b => (stored_writeMem f isSigned v _).kept (i, b) ?_
      intro k _ hk heq
      have hlt := addr_fst_lt h hk
      rw [heq] at hlt
      exact hi hlt
    rw [hout, memOf, List.getD_eq_default _ _ (Nat.le_of_not_lt hi),
      List.getElem?_eq_none (by rw [List.length_range]; exact Nat.le_of_not_lt hi)]
    rfl

theorem bitAt_writeMem_addr {k : ℕ} (hk : k < f.length) :
    bitAt (f.writeMem isSigned v mem) (f.addr k) = v.toNat.testBit k :=
  (stored_writeMem f isSigned v mem).stored k (Nat.zero_le k) hk

theorem bitAt_writeMem_of_not_covers {a : ℕ × ℕ} (h : ¬f.Covers a) :
    bitAt (f.writeMem isSigned v mem) a = bitAt mem a :=
  (stored_writeMem f isSigned v mem).kept a fun k _ hk heq => h ⟨k, hk, heq⟩

theorem writeMem_comm (h : f.Disjoint g) :
    g.writeMem isSigned' w (f.writeMem isSigned v mem) =
      f.writeMem isSigned v (g.writeMem isSigned' w mem) := by
  refine mem_ext fun a => ?_
  by_cases hf : f.Covers a
  · rw [bitAt_writeMem_of_not_covers (h a hf)]
    obtain ⟨k, hk, rfl⟩ := hf
    rw [bitAt_writeMem_addr hk, bitAt_writeMem_addr hk]
  · rw [bitAt_writeMem_of_not_covers (f := f) hf]
    by_cases hg : g.Covers a
    · obtain ⟨k, hk, rfl⟩ := hg
      rw [bitAt_writeMem_addr hk, bitAt_writeMem_addr hk]
    · rw [bitAt_writeMem_of_not_covers hg, bitAt_writeMem_of_not_covers hg,
        bitAt_writeMem_of_not_covers hf]

theorem read_congr (h : ∀ a, f.Covers a → bitAt (memOf p') a = bitAt (memOf p) a) :
    f.read isSigned p' = f.read isSigned p := by
  have hlast : f.length - 1 < f.length := Nat.sub_lt f.length_pos Nat.one_pos
  have hraw : f.readRaw isSigned p' = f.readRaw isSigned p := by
    refine Nat.eq_of_testBit_eq fun i => ?_
    rw [loads_readRaw f isSigned p', loads_readRaw f isSigned p, fieldBit, fieldBit,
      h _ ⟨f.length - 1, hlast, rfl⟩]
    split
    · rename_i hi
      rw [h _ ⟨_, hi, rfl⟩]
    · rfl
  rw [read, read, hraw]

theorem Apart.disjoint (h : f.Apart g) : f.Disjoint g := by
  rintro a ⟨k, hk, rfl⟩ ⟨l, hl, heq⟩
  obtain ⟨horder, hrange⟩ := h
  obtain ⟨byteOrder, start, length, hpos, hle⟩ := f
  obtain ⟨byteOrder', start', length', hpos', hle'⟩ := g
  subst horder
  cases byteOrder <;> simp only [addr, fieldAddr, addrLe, addrBe, Prod.mk.injEq] at * <;> omega

end

/-- A write changes no byte outside the buffer, a field which is read back is the written value of
which the low bits are extended, the other bits are kept, and writes to other fields commute. -/
theorem write_read_laws (f g : BitField) (p : List UInt8) (hf : f.Fits p) (hg : g.Fits p)
    (isSigned isSigned' : Bool) (v w : UInt64) :
    memOf (f.write isSigned v p) = f.writeMem isSigned v (memOf p) ∧
    (∀ dst, f.read dst (f.write isSigned v p) = lowVal dst f.length v.toNat) ∧
    (∀ a, ¬f.Covers a → bitAt (memOf (f.write isSigned v p)) a = bitAt (memOf p) a) ∧
    (f.Apart g ∨ f.Disjoint g →
      (∀ dst, g.read dst (f.write isSigned v p) = g.read dst p) ∧
      g.write isSigned' w (f.write isSigned v p) =
        f.write isSigned v (g.write isSigned' w p)) := by
  have hmem := @memOf_write f isSigned v p hf
  refine ⟨hmem, fun dst => ?_, fun a ha => ?_, fun h => ?_⟩
  · refine val_of_loads f.length_pos f.length_le (loads_readRaw f dst _) fun k hk => ?_
    rw [hmem]
    exact bitAt_writeMem_addr hk
  · rw [hmem]
    exact bitAt_writeMem_of_not_covers ha
  · have hdisjoint : f.Disjoint g := h.elim Apart.disjoint id
    constructor
    · refine fun dst => read_congr fun a ha => ?_
      rw [hmem]
      exact bitAt_writeMem_of_not_covers fun hf' => hdisjoint a hf' ha
    · have hlen : ∀ (f : BitField) (isSigned : Bool) (v : UInt64) (p : List UInt8),
          (f.write isSigned v p).length = p.length := by
        intro f isSigned v p
        rw [write, List.length_map, List.length_range]
      rw [write, hlen, hmem, write, hlen, memOf_write hg, writeMem_comm hdisjoint]

theorem write_read_laws_nibbles :
    BitField.read ⟨.big, 0, 4, by decide, by decide⟩ true
      (write ⟨.big, 0, 4, by decide, by decide⟩ false 0x1d [0xff]) = -3 ∧
    BitField.read ⟨.big, 4, 4, by decide, by decide⟩ false
      (write ⟨.big, 0, 4, by decide, by decide⟩ false 0x1d [0xff]) = 15 := by
  have h := write_read_laws ⟨.big, 0, 4, by decide, by decide⟩ ⟨.big, 4, 4, by decide, by decide⟩
    [0xff] (Nat.le_add_right 4 4) (Nat.le_refl 8) false false 0x1d 0
  refine ⟨(h.2.1 true).trans (by decide), ?_⟩
  rw [(h.2.2.2 (.inl ⟨rfl, .inl (by decide)⟩)).1 false]
  decide

end BitField

end Babeltrace.Bitfield
