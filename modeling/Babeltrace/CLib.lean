import Mathlib

/-!
# C integers and characters

A 64-bit integer seen as a signed or as an unsigned one, and `isspace()`.
-/
namespace Babeltrace.CLib

theorem toInt_toInt64 (n : UInt64) :
    n.toInt64.toInt = if n.toNat < 2 ^ 63 then (n.toNat : ℤ) else n.toNat - 2 ^ 64 := by
  change n.toBitVec.toInt = _
  rw [BitVec.toInt_eq_toNat_cond]
  change (if 2 * n.toNat < 2 ^ 64 then (n.toNat : ℤ) else n.toNat - 2 ^ 64) = _
  split <;> split <;> omega

theorem toInt_eq (n : Int64) :
    n.toInt = if n.toUInt64.toNat < 2 ^ 63 then (n.toUInt64.toNat : ℤ)
      else n.toUInt64.toNat - 2 ^ 64 := by
  rw [← toInt_toInt64, Int64.toInt64_toUInt64]

theorem toNat_toUInt64 (n : Int64) : (n.toUInt64.toNat : ℤ) = n.toInt % 2 ^ 64 := by
  have heq := toInt_eq n
  have hlt := n.toUInt64.toNat_lt
  split at heq <;> omega

/-- `isspace()`, with the C locale -/
def isSpace (ch : UInt8) : Bool := ch = 32 || (9 ≤ ch && ch ≤ 13)

end Babeltrace.CLib
