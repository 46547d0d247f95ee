import Mathlib

/-!
# Bits of a memory of 8-bit units

A bit has the address of its unit and its rank within the unit. `addr k` is the address of the bit
of which the weight is `2 ^ k`.
-/
namespace Babeltrace.UnitBits

def bitOf (u : UInt8) (b : ℕ) : Bool := u.toNat.testBit b

@[simp] theorem bitOf_or (u v : UInt8) (b : ℕ) : bitOf (u ||| v) b = (bitOf u b || bitOf v b) := by
  simp only [bitOf, UInt8.toNat_or, Nat.testBit_or]

@[simp] theorem bitOf_and (u v : UInt8) (b : ℕ) :
    bitOf (u &&& v) b = (bitOf u b && bitOf v b) := by
  simp only [bitOf, UInt8.toNat_and, Nat.testBit_and]

@[simp] theorem bitOf_not (u : UInt8) (b : ℕ) : bitOf (~~~u) b = (decide (b < 8) && !bitOf u b) :=
  BitVec.getLsbD_not (x := u.toBitVec)

theorem bitOf_of_ge {u : UInt8} {b : ℕ} (h : 8 ≤ b) : bitOf u b = false :=
  BitVec.getLsbD_of_ge u.toBitVec b h

@[simp] theorem bitOf_toUInt8 (v b : ℕ) : bitOf v.toUInt8 b = (decide (b < 8) && v.testBit b) :=
  BitVec.getLsbD_ofNat 8 v b

theorem bitOf_shiftLeft (u : UInt8) {s : ℕ} (hs : s < 8) (b : ℕ) :
    bitOf (u <<< s.toUInt8) b = (decide (b < 8) && decide (s ≤ b) && bitOf u (b - s)) := by
  have hmod : s % 2 ^ 8 % 8 = s := by
    rw [Nat.mod_eq_of_lt (Nat.lt_of_lt_of_le hs (by decide)), Nat.mod_eq_of_lt hs]
  have hs' : s.toUInt8.toNat % 8 = s := hmod
  rw [bitOf, UInt8.toNat_shiftLeft, hs', Nat.testBit_mod_two_pow, Nat.testBit_shiftLeft, bitOf,
    Bool.and_assoc]

abbrev Mem := ℕ → UInt8

def bitAt (mem : Mem) (addr : ℕ × ℕ) : Bool := bitOf (mem addr.1) addr.2

structure Stored (mem mem' : Mem) (addr : ℕ → ℕ × ℕ) (bit : ℕ → Bool) (lo hi : ℕ) : Prop where
  stored : ∀ k, lo ≤ k → k < hi → bitAt mem' (addr k) = bit k
  kept : ∀ a, (∀ k, lo ≤ k → k < hi → addr k ≠ a) → bitAt mem' a = bitAt mem a

section
variable {mem mem' mem'' : Mem} {addr : ℕ → ℕ × ℕ} {bit : ℕ → Bool} {lo mid hi : ℕ}

theorem Stored.refl (mem : Mem) (addr : ℕ → ℕ × ℕ) (bit : ℕ → Bool) (k : ℕ) :
    Stored mem mem addr bit k k where
  stored _ hl hl' := absurd hl (Nat.not_le_of_lt hl')
  kept _ _ := rfl

theorem Stored.trans (hinj : ∀ k < hi, ∀ l < hi, addr k = addr l → k = l) (hlo : lo ≤ mid)
    (hhi : mid ≤ hi) (h : Stored mem mem' addr bit lo mid) (h' : Stored mem' mem'' addr bit mid hi) :
    Stored mem mem'' addr bit lo hi where
  stored k hk hk' := by
    by_cases hlow : k < mid
    · rw [h'.kept, h.stored k hk hlow]
      intro l hl hl' heq
      have hkl := hinj l hl' k hk' heq
      omega
    · exact h'.stored k (Nat.le_of_not_lt hlow) hk'
  kept a ha := by
    rw [h'.kept a fun k hk hk' => ha k (by omega) hk',
      h.kept a fun k hk hk' => ha k hk (by omega)]

theorem Stored.update {u base w : ℕ} {val : UInt8}
    (haddr : ∀ k < w, addr (lo + k) = (u, base + k))
    (hstored : ∀ k < w, bitOf val (base + k) = bit (lo + k))
    (hkept : ∀ b < 8, ¬(base ≤ b ∧ b < base + w) → bitOf val b = bitOf (mem u) b) :
    Stored mem (Function.update mem u val) addr bit lo (lo + w) where
  stored k hk hk' := by
    obtain ⟨k, rfl⟩ := Nat.exists_eq_add_of_le hk
    rw [haddr k (by omega), bitAt, Function.update_self]
    exact hstored k (by omega)
  kept a ha := by
    obtain ⟨v, b⟩ := a
    by_cases hv : v = u
    · subst hv
      simp only [bitAt, Function.update_self]
      by_cases hb : b < 8
      · refine hkept b hb fun hin => ha (lo + (b - base)) (by omega) (by omega) ?_
        rw [haddr _ (by omega), Nat.add_sub_cancel' hin.1]
      · rw [bitOf_of_ge (Nat.le_of_not_lt hb), bitOf_of_ge (Nat.le_of_not_lt hb)]
    · simp only [bitAt, Function.update_of_ne hv]

end

/-! ## Loading the most significant bits first -/

/-- The 64-bit register holds the bits from the bit `k` on. -/
def Loads (bit : ℕ → Bool) (k v : ℕ) : Prop := ∀ i, v.testBit i = (decide (i < 64) && bit (k + i))

theorem Loads.append {bit : ℕ → Bool} {k w v c : ℕ} (hw : w ≤ 64) (h : Loads bit (k + w) v)
    (hc : ∀ i, c.testBit i = (decide (i < w) && bit (k + i))) :
    Loads bit k (v <<< w % 2 ^ 64 ||| c) := by
  intro i
  rw [Nat.testBit_or, Nat.testBit_mod_two_pow, Nat.testBit_shiftLeft, h, hc]
  by_cases hi : i < w
  · have hi64 : i < 64 := by omega
    simp [hi, hi64]
  · have hadd : k + w + (i - w) = k + i := by omega
    by_cases hi64 : i < 64
    · have hsub : i - w < 64 := by omega
      simp [hi, hi64, hadd, Nat.le_of_not_lt hi, hsub]
    · simp [hi, hi64]

theorem Loads.lt {bit : ℕ → Bool} {k v : ℕ} (h : Loads bit k v) : v < 2 ^ 64 := by
  refine Nat.lt_pow_two_of_testBit v fun i hi => ?_
  rw [h, decide_eq_false (Nat.not_lt.mpr hi), Bool.false_and]

/-! ## Numbers as sums of powers of two -/

theorem xor_two_pow_of_lt {v k : ℕ} (hv : v < 2 ^ k) : v ^^^ 2 ^ k = v + 2 ^ k := by
  have hor := Nat.two_pow_add_eq_or_of_lt hv 1
  rw [Nat.mul_one] at hor
  rw [Nat.add_comm, hor]
  refine Nat.eq_of_testBit_eq fun i => ?_
  rw [Nat.testBit_xor, Nat.testBit_or, Nat.testBit_two_pow]
  by_cases hi : k = i
  · rw [← hi, Nat.testBit_lt_two_pow hv]
    simp
  · simp [hi]

theorem xor_two_pow {v k : ℕ} (hv : v < 2 ^ (k + 1)) :
    v ^^^ 2 ^ k = if 2 ^ k ≤ v then v - 2 ^ k else v + 2 ^ k := by
  split
  · rename_i hle
    have hsub := @xor_two_pow_of_lt (v - 2 ^ k) k (by omega)
    rw [Nat.sub_add_cancel hle] at hsub
    rw [← hsub, Nat.xor_assoc, Nat.xor_self, Nat.xor_zero]
    omega
  · exact xor_two_pow_of_lt (by omega)

/-- What holds of the powers of two and is kept by exclusive disjunctions holds of every number. -/
theorem xor_induction {P : ℕ → Prop} {n : ℕ} (zero : P 0) (pow : ∀ k < n, P (2 ^ k))
    (xor : ∀ a b, P a → P b → P (a ^^^ b)) {v : ℕ} (hv : v < 2 ^ n) : P v := by
  induction n generalizing v with
  | zero =>
    obtain rfl : v = 0 := by omega
    exact zero
  | succ n ih =>
    have ih := @ih fun k hk => pow k (by omega)
    by_cases hlt : v < 2 ^ n
    · exact ih hlt
    · have hxor := xor_two_pow hv
      rw [if_pos (by omega)] at hxor
      have hv' : v ^^^ 2 ^ n ^^^ 2 ^ n = v := by rw [Nat.xor_assoc, Nat.xor_self, Nat.xor_zero]
      rw [← hv']
      exact xor _ _ (ih (by omega)) (pow n (by omega))

theorem or_eq_xor {a b : ℕ} (h : a &&& b = 0) : a ||| b = a ^^^ b := by
  refine Nat.eq_of_testBit_eq fun i => ?_
  have hbit := congrArg (Nat.testBit · i) h
  simp only [Nat.testBit_and, Nat.zero_testBit] at hbit
  rw [Nat.testBit_or, Nat.testBit_xor]
  cases ha : a.testBit i <;> simp_all

end Babeltrace.UnitBits
