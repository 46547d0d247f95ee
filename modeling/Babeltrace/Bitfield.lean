import Babeltrace.UnitBits

/-!
# Bit fields of byte sequences

The macros of `compat/bitfield.h` with 8-bit units, `bt2c/read-fixed-len-int.hpp`, and
`bt2c/reverse-fixed-len-int-bits.hpp`. The 64-bit variable `_v` of the macros is a natural number,
every left shift being taken modulo `2 ^ 64`.
-/
namespace Babeltrace.Bitfield

/-- `_ptr[i]` -/
def unit (p : List UInt8) (i : ℕ) : ℕ := (p.getD i 0).toNat

/-- `_bt_make_mask(type, length)` -/
def makeMask (length : ℕ) : ℕ := 2 ^ length - 1

/-- `_bt_safe_lshift(_v, shift)` on a 64-bit `_v` -/
def lshift64 (v shift : ℕ) : ℕ := v <<< shift % 2 ^ 64

/-- The unit loop of `_bt_bitfield_read_le`: from unit `i + n` down to unit `i + 1` -/
def readUnitsDown (p : List UInt8) (i : ℕ) : ℕ → ℕ → ℕ
  | 0, v => v
  | n + 1, v => readUnitsDown p i n (lshift64 v 8 ||| unit p (i + n + 1))

/-- The unit loop of `_bt_bitfield_read_be`: `n` units from unit `i` up -/
def readUnitsUp (p : List UInt8) : ℕ → ℕ → ℕ → ℕ
  | _, 0, v => v
  | i, n + 1, v => readUnitsUp p (i + 1) n (lshift64 v 8 ||| unit p i)

/-- `_bt_bitfield_read_le(ptr, uint8_t, start, length, vptr)`; `isSigned` is about `*vptr`. -/
def readLe (isSigned : Bool) (p : List UInt8) (start length : ℕ) : ℕ :=
  if length = 0 then 0
  else
    let fin := start + length
    let startUnit := start / 8
    let endUnit := (fin + 7) / 8
    let lastUnit := unit p (endUnit - 1)
    let signBit := (if fin % 8 = 0 then 8 else fin % 8) - 1
    let v₀ := if isSigned && lastUnit.testBit signBit then 2 ^ 64 - 1 else 0
    if startUnit = endUnit - 1 then
      let cmask := lastUnit >>> (start % 8)
      let cmask := if (fin - start) % 8 = 0 then cmask else cmask &&& makeMask (fin - start)
      lshift64 v₀ (fin - start) ||| cmask
    else
      -- The partial last unit is read first, then the whole units below it.
      let v := if fin % 8 = 0 then v₀
        else lshift64 v₀ (fin % 8) ||| (lastUnit &&& makeMask (fin % 8))
      let topUnit := if fin % 8 = 0 then endUnit - 1 else endUnit - 2
      let v := readUnitsDown p startUnit (topUnit - startUnit) v
      if start % 8 = 0 then lshift64 v 8 ||| unit p startUnit
      else lshift64 v (8 - start % 8) |||
        ((unit p startUnit >>> (start % 8)) &&& makeMask (8 - start % 8))

/-- `_bt_bitfield_read_be(ptr, uint8_t, start, length, vptr)` -/
def readBe (isSigned : Bool) (p : List UInt8) (start length : ℕ) : ℕ :=
  if length = 0 then 0
  else
    let fin := start + length
    let startUnit := start / 8
    let endUnit := (fin + 7) / 8
    let firstUnit := unit p startUnit
    let v₀ := if isSigned && firstUnit.testBit (8 - start % 8 - 1) then 2 ^ 64 - 1 else 0
    if startUnit = endUnit - 1 then
      let cmask := firstUnit >>> ((8 - fin % 8) % 8)
      let cmask := if (fin - start) % 8 = 0 then cmask else cmask &&& makeMask (fin - start)
      lshift64 v₀ (fin - start) ||| cmask
    else
      let v := if start % 8 = 0 then v₀
        else lshift64 v₀ (8 - start % 8) ||| (firstUnit &&& makeMask (8 - start % 8))
      let thisUnit := if start % 8 = 0 then startUnit else startUnit + 1
      let v := readUnitsUp p thisUnit (endUnit - 1 - thisUnit) v
      if fin % 8 = 0 then lshift64 v 8 ||| unit p (endUnit - 1)
      else lshift64 v (fin % 8) |||
        ((unit p (endUnit - 1) >>> (8 - fin % 8)) &&& makeMask (fin % 8))

/-- `bt2c::readFixedLenIntLe` of `n` bytes, as an unsigned integer -/
def readStdLe : ℕ → List UInt8 → ℕ
  | 0, _ => 0
  | n + 1, p => (p.headD 0).toNat + 256 * readStdLe n p.tail

/-- `bt2c::readFixedLenIntBe` of `n` bytes, as an unsigned integer -/
def readStdBe : ℕ → List UInt8 → ℕ
  | 0, _ => 0
  | n + 1, p => (p.headD 0).toNat * 256 ^ n + readStdBe n p.tail

def toSigned (len v : ℕ) : ℤ := if v.testBit (len - 1) then (v : ℤ) - 2 ^ len else v

/-- Conversion of any integer to `unsigned long long`. -/
def toU64 (v : ℤ) : ℕ := (v % 2 ^ 64).toNat

def swapBits (mask shift p : ℕ) : ℕ :=
  let q := ((p >>> shift) ^^^ p) &&& mask
  (p ^^^ q ^^^ (q <<< shift)) % 2 ^ 64

/-- `bt2c::reverseFixedLenIntBits` before its last shift -/
def reverse64 (v : ℕ) : ℕ :=
  let m0 := 0x5555555555555555
  let v := ((v >>> 1) &&& m0) ||| ((v &&& m0) <<< 1)
  let v := swapBits 0x0300c0303030c303 4 v
  let v := swapBits 0x00c0300c03f0003f 8 v
  let v := swapBits 0x00000ffc00003fff 20 v
  ((v >>> 34) ||| (v <<< 30)) % 2 ^ 64

def reverseFixedLenIntBits (isSigned : Bool) (v : ℤ) (len : ℕ) : ℤ :=
  let r := reverse64 (toU64 v)
  if isSigned then toSigned 64 r >>> (64 - len) else (r >>> (64 - len) : ℕ)

example : reverseFixedLenIntBits false 0b111011010 9 = 0b010110111 := by decide

example : reverseFixedLenIntBits true 0b01011 5 = -6 := by decide

/-! ## Write macros -/

open UnitBits (Mem)

/-- `_bt_make_mask_complement(uint8_t, length)` -/
def makeMaskComplement8 (length : ℕ) : UInt8 := 0xff <<< length.toUInt8

/-- `_bt_make_mask(uint8_t, length)` -/
def makeMask8 (length : ℕ) : UInt8 := ~~~makeMaskComplement8 length

def insertBits (mem : Mem) (i : ℕ) (mask cmask : UInt8) : Mem :=
  Function.update mem i ((mem i &&& mask) ||| (cmask &&& ~~~mask))

/-- `_bt_safe_rshift(_v, shift)`: the shift of a signed integer carries the sign bit. -/
def rshift64 (isSigned : Bool) (v shift : ℕ) : ℕ :=
  if isSigned then toU64 (toSigned 64 v >>> shift) else v >>> shift

/-- `_v` without its high bits -/
def trim (v length : ℕ) : ℕ := if length < 64 then v &&& makeMask length else v

/-- The unit loop of `_bt_bitfield_write_le`: `n` units from unit `i` up -/
def writeUnitsUp (isSigned : Bool) : ℕ → ℕ → Mem → ℕ → Mem × ℕ
  | _, 0, mem, v => (mem, v)
  | i, n + 1, mem, v =>
    writeUnitsUp isSigned (i + 1) n (Function.update mem i v.toUInt8) (rshift64 isSigned v 8)

/-- The unit loop of `_bt_bitfield_write_be`: from unit `i + n` down to unit `i + 1` -/
def writeUnitsDown (isSigned : Bool) (i : ℕ) : ℕ → Mem → ℕ → Mem × ℕ
  | 0, mem, v => (mem, v)
  | n + 1, mem, v =>
    writeUnitsDown isSigned i n (Function.update mem (i + n + 1) v.toUInt8) (rshift64 isSigned v 8)

/-- What `_bt_bitfield_write_le` writes once the partial first unit is written -/
def writeLeFrom (isSigned : Bool) (fin thisUnit : ℕ) (mem : Mem) (v : ℕ) : Mem :=
  let endUnit := (fin + 7) / 8
  let (mem, v) := writeUnitsUp isSigned thisUnit (endUnit - 1 - thisUnit) mem v
  if fin % 8 = 0 then Function.update mem (endUnit - 1) v.toUInt8
  else insertBits mem (endUnit - 1) (makeMaskComplement8 (fin % 8)) v.toUInt8

/-- `_bt_bitfield_write_le(ptr, uint8_t, start, length, v)` -/
def writeLe (isSigned : Bool) (mem : Mem) (start length v : ℕ) : Mem :=
  if length = 0 then mem
  else
    let fin := start + length
    let startUnit := start / 8
    let endUnit := (fin + 7) / 8
    let v := trim v length
    if startUnit = endUnit - 1 then
      let mask := makeMask8 (start % 8)
      let mask := if fin % 8 = 0 then mask else mask ||| makeMaskComplement8 (fin % 8)
      insertBits mem startUnit mask (v.toUInt8 <<< (start % 8).toUInt8)
    else if start % 8 = 0 then writeLeFrom isSigned fin startUnit mem v
    else writeLeFrom isSigned fin (startUnit + 1)
      (insertBits mem startUnit (makeMask8 (start % 8)) (v.toUInt8 <<< (start % 8).toUInt8))
      (rshift64 isSigned v (8 - start % 8))

/-- What `_bt_bitfield_write_be` writes once the partial last unit is written -/
def writeBeFrom (isSigned : Bool) (start thisUnit : ℕ) (mem : Mem) (v : ℕ) : Mem :=
  let startUnit := start / 8
  let (mem, v) := writeUnitsDown isSigned startUnit (thisUnit - startUnit) mem v
  if start % 8 = 0 then Function.update mem startUnit v.toUInt8
  else insertBits mem startUnit (makeMaskComplement8 (8 - start % 8)) v.toUInt8

/-- `_bt_bitfield_write_be(ptr, uint8_t, start, length, v)` -/
def writeBe (isSigned : Bool) (mem : Mem) (start length v : ℕ) : Mem :=
  if length = 0 then mem
  else
    let fin := start + length
    let startUnit := start / 8
    let endUnit := (fin + 7) / 8
    let v := trim v length
    if startUnit = endUnit - 1 then
      let shift := (8 - fin % 8) % 8
      let mask := makeMask8 shift
      let mask := if start % 8 = 0 then mask else mask ||| makeMaskComplement8 (8 - start % 8)
      insertBits mem startUnit mask (v.toUInt8 <<< shift.toUInt8)
    else if fin % 8 = 0 then writeBeFrom isSigned start (endUnit - 1) mem v
    else writeBeFrom isSigned start (endUnit - 2)
      (insertBits mem (endUnit - 1) (makeMask8 (8 - fin % 8))
        (v.toUInt8 <<< (8 - fin % 8).toUInt8))
      (rshift64 isSigned v (fin % 8))

end Babeltrace.Bitfield
