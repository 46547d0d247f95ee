import Babeltrace.Bitfield

/-!
# What the bit field macros read and write

The bits of a little-endian field go from the least significant one of its first unit up, and those
of a big-endian field from the least significant one of its last unit down.
-/
namespace Babeltrace.Bitfield
open UnitBits

/-- The bit `k` of the little-endian field which starts at `start` -/
def addrLe (start k : ℕ) : ℕ × ℕ := ((start + k) / 8, (start + k) % 8)

/-- The bit `k` of the big-endian field which ends at `fin` -/
def addrBe (fin k : ℕ) : ℕ × ℕ := ((fin - 1 - k) / 8, 7 - (fin - 1 - k) % 8)

def memOf (p : List UInt8) : Mem := fun i => p.getD i 0

theorem unit_lt (p : List UInt8) (i : ℕ) : unit p i < 2 ^ 8 := (p.getD i 0).toNat_lt

theorem unit_zero (p : List UInt8) : unit p 0 = (p.headD 0).toNat := by cases p <;> rfl

theorem unit_succ (p : List UInt8) (i : ℕ) : unit p (i + 1) = unit p.tail i := by cases p <;> rfl

theorem testBit_unit (p : List UInt8) (i b : ℕ) :
    (unit p i).testBit b = bitAt (memOf p) (i, b) := rfl

theorem testBit_unit_of_ge (p : List UInt8) (i : ℕ) {b : ℕ} (h : 8 ≤ b) :
    (unit p i).testBit b = false := bitOf_of_ge h

theorem testBit_makeMask (length i : ℕ) : (makeMask length).testBit i = decide (i < length) :=
  Nat.testBit_two_pow_sub_one length i

/-! ## Reading -/

def fieldBit (isSigned : Bool) (mem : Mem) (addr : ℕ → ℕ × ℕ) (length k : ℕ) : Bool :=
  if k < length then bitAt mem (addr k) else isSigned && bitAt mem (addr (length - 1))

section
variable {isSigned : Bool} {p : List UInt8} {start length : ℕ} {addr : ℕ → ℕ × ℕ} {k w v u lo i : ℕ}
  {c : Prop}

theorem loads_sign {signUnit signBit : ℕ} (haddr : addr (length - 1) = (signUnit, signBit)) :
    Loads (fieldBit isSigned (memOf p) addr length) length
      (if isSigned && (unit p signUnit).testBit signBit then 2 ^ 64 - 1 else 0) := by
  intro i
  have hge : ¬length + i < length := by omega
  rw [fieldBit, if_neg hge, haddr, ← testBit_unit]
  cases isSigned && (unit p signUnit).testBit signBit with
  | false => rw [if_neg (by simp), Nat.zero_testBit, Bool.and_false]
  | true => rw [if_pos rfl, Nat.testBit_two_pow_sub_one, Bool.and_true]

theorem Loads.appendUnit {k w v c u lo : ℕ} (hw : w ≤ 8) (hk : k + w ≤ length)
    (haddr : ∀ i < w, addr (k + i) = (u, lo + i))
    (hc : ∀ i, c.testBit i = (decide (i < w) && (unit p u).testBit (lo + i)))
    (h : Loads (fieldBit isSigned (memOf p) addr length) (k + w) v) :
    Loads (fieldBit isSigned (memOf p) addr length) k (lshift64 v w ||| c) := by
  refine h.append (by omega) fun i => ?_
  rw [hc]
  by_cases hi : i < w
  · rw [fieldBit, if_pos (by omega), haddr i hi, testBit_unit]
  · rw [decide_eq_false hi, Bool.false_and, Bool.false_and]

theorem testBit_unit_whole (u i : ℕ) :
    (unit p u).testBit i = (decide (i < 8) && (unit p u).testBit (0 + i)) := by
  by_cases hi : i < 8
  · rw [decide_eq_true hi, Bool.true_and, Nat.zero_add]
  · rw [decide_eq_false hi, Bool.false_and, testBit_unit_of_ge p u (Nat.le_of_not_lt hi)]

theorem testBit_unit_low (u w i : ℕ) : (unit p u &&& makeMask w).testBit i =
    (decide (i < w) && (unit p u).testBit (0 + i)) := by
  rw [Nat.testBit_and, testBit_makeMask, Bool.and_comm, Nat.zero_add]

theorem testBit_unit_mid (u lo w i : ℕ) : (unit p u >>> lo &&& makeMask w).testBit i =
    (decide (i < w) && (unit p u).testBit (lo + i)) := by
  rw [Nat.testBit_and, testBit_makeMask, Nat.testBit_shiftRight, Bool.and_comm]

theorem testBit_unit_single (u lo : ℕ) (hlength : 0 < length) (hle : lo + length ≤ 8) (i : ℕ) :
    (if length % 8 = 0 then unit p u >>> lo else unit p u >>> lo &&& makeMask length).testBit i =
      (decide (i < length) && (unit p u).testBit (lo + i)) := by
  split
  · have h8 : length = 8 := by omega
    have hlo : lo = 0 := by omega
    rw [hlo, h8, Nat.shiftRight_zero]
    exact testBit_unit_whole u i
  · exact testBit_unit_mid u lo length i

theorem loads_readUnitsDown (n : ℕ) (hk : k + 8 * n ≤ length)
    (haddr : ∀ j < 8 * n, addr (k + j) = (i + 1 + j / 8, j % 8))
    (h : Loads (fieldBit isSigned (memOf p) addr length) (k + 8 * n) v) :
    Loads (fieldBit isSigned (memOf p) addr length) k (readUnitsDown p i n v) := by
  induction n generalizing v with
  | zero => exact h
  | succ n ih =>
    refine ih (by omega) (fun j hj => haddr j (by omega)) ?_
    refine Loads.appendUnit (by omega) (by omega) (fun j hj => ?_) (testBit_unit_whole (i + n + 1)) h
    rw [Nat.add_assoc, haddr _ (by omega), Prod.mk.injEq]
    omega

theorem loads_readUnitsUp (n : ℕ) (hk : k + 8 * n ≤ length)
    (haddr : ∀ j < 8 * n, addr (k + j) = (i + (n - 1 - j / 8), j % 8))
    (h : Loads (fieldBit isSigned (memOf p) addr length) (k + 8 * n) v) :
    Loads (fieldBit isSigned (memOf p) addr length) k (readUnitsUp p i n v) := by
  induction n generalizing i v with
  | zero => exact h
  | succ n ih =>
    refine ih (by omega) (fun j hj => ?_) ?_
    · rw [haddr j (by omega), Prod.mk.injEq]
      omega
    refine Loads.appendUnit (by omega) (by omega) (fun j hj => ?_) (testBit_unit_whole i) h
    rw [Nat.add_assoc, haddr _ (by omega), Prod.mk.injEq]
    omega

theorem loads_ofPart [Decidable c] (hwhole : c → k = length) (hpart : ¬c → w < 8 ∧ k + w = length)
    (haddr : ¬c → ∀ i < w, addr (k + i) = (u, i))
    (h : Loads (fieldBit isSigned (memOf p) addr length) length v) :
    Loads (fieldBit isSigned (memOf p) addr length) k
      (if c then v else lshift64 v w ||| (unit p u &&& makeMask w)) := by
  split
  · rename_i hc
    rwa [hwhole hc]
  · rename_i hc
    obtain ⟨hw, hk⟩ := hpart hc
    refine Loads.appendUnit hw.le hk.le (fun i hi => ?_) (testBit_unit_low u w) (hk ▸ h)
    rw [haddr hc i hi, Nat.zero_add]

theorem loads_last [Decidable c] (hk : k ≤ 8) (hle : k ≤ length)
    (haddr : ∀ i < k, addr i = (u, 8 - k + i)) (hwhole : c → k = 8)
    (hpart : ¬c → w = k ∧ lo = 8 - k) (h : Loads (fieldBit isSigned (memOf p) addr length) k v) :
    Loads (fieldBit isSigned (memOf p) addr length) 0
      (if c then lshift64 v 8 ||| unit p u
        else lshift64 v w ||| (unit p u >>> lo &&& makeMask w)) := by
  have haddr (i : ℕ) (hi : i < k) : addr (0 + i) = (u, 8 - k + i) := by
    rw [Nat.zero_add, haddr i hi]
  rw [← Nat.zero_add k] at h hle
  split
  · rename_i hc
    obtain rfl := hwhole hc
    exact Loads.appendUnit hk hle haddr (testBit_unit_whole u) h
  · rename_i hc
    obtain ⟨rfl, rfl⟩ := hpart hc
    exact Loads.appendUnit hk hle haddr (testBit_unit_mid u (8 - w) w) h

theorem loads_single (hlength : 0 < length) (hle : lo + length ≤ 8)
    (haddr : ∀ i < length, addr i = (u, lo + i))
    (h : Loads (fieldBit isSigned (memOf p) addr length) length v) :
    Loads (fieldBit isSigned (memOf p) addr length) 0
      (lshift64 v length |||
        if length % 8 = 0 then unit p u >>> lo else unit p u >>> lo &&& makeMask length) := by
  refine Loads.appendUnit (by omega) (Nat.zero_add length).le (fun i hi => ?_)
    (testBit_unit_single u lo hlength hle) ((Nat.zero_add length).symm ▸ h)
  rw [Nat.zero_add, haddr i hi]

theorem loads_readLe (hlength : 0 < length) :
    Loads (fieldBit isSigned (memOf p) (addrLe start) length) 0
      (readLe isSigned p start length) := by
  have haddr : addrLe start (length - 1) = ((start + length + 7) / 8 - 1,
      (if (start + length) % 8 = 0 then 8 else (start + length) % 8) - 1) := by
    rw [addrLe, Prod.mk.injEq]
    split <;> omega
  have hsign := @loads_sign isSigned p length _ _ _ haddr
  unfold readLe
  rw [if_neg (by omega)]
  dsimp only
  split
  · rename_i hunit
    rw [Nat.add_sub_cancel_left, ← hunit]
    rw [← hunit] at hsign
    refine loads_single hlength (by omega) (fun i hi => ?_) hsign
    rw [addrLe, Prod.mk.injEq]
    omega
  · rename_i hunit
    refine loads_last (k := 8 - start % 8) (by omega) (by omega)
      (fun i hi => by rw [addrLe, Prod.mk.injEq]; omega) (by omega) (by omega) ?_
    refine loads_readUnitsDown _ ?_ (fun j hj => ?_)
      (loads_ofPart ?_ (fun h => ?_) (fun h i hi => ?_) hsign)
    · split <;> omega
    · rw [addrLe, Prod.mk.injEq]
      split at hj <;> omega
    · split <;> omega
    · split <;> omega
    · rw [if_neg h, addrLe, Prod.mk.injEq]
      omega

theorem loads_readBe (hlength : 0 < length) :
    Loads (fieldBit isSigned (memOf p) (addrBe (start + length)) length) 0
      (readBe isSigned p start length) := by
  have haddr : addrBe (start + length) (length - 1) = (start / 8, 8 - start % 8 - 1) := by
    rw [addrBe, Prod.mk.injEq]
    omega
  have hsign := @loads_sign isSigned p length _ _ _ haddr
  unfold readBe
  rw [if_neg (by omega)]
  dsimp only
  split
  · rename_i hunit
    rw [Nat.add_sub_cancel_left]
    refine loads_single hlength (by omega) (fun i hi => ?_) hsign
    rw [addrBe, Prod.mk.injEq]
    omega
  · rename_i hunit
    refine loads_last (k := if (start + length) % 8 = 0 then 8 else (start + length) % 8)
      (by split <;> omega) (by split <;> omega) (fun i hi => ?_) (fun h => if_pos h)
      (fun h => by rw [if_neg h]; omega) ?_
    · rw [addrBe, Prod.mk.injEq]
      split at hi <;> split <;> omega
    refine loads_readUnitsUp _ ?_ (fun j hj => ?_)
      (loads_ofPart (fun h => ?_) (fun h => ?_) (fun h i hi => ?_) hsign)
    · split <;> split <;> omega
    · rw [addrBe, Prod.mk.injEq]
      split at hj <;> split <;> omega
    · rw [if_pos h]
      split <;> omega
    · rw [if_neg h]
      split <;> omega
    · rw [if_neg h, addrBe, Prod.mk.injEq]
      split <;> omega

end

theorem testBit_readStdLe (n : ℕ) (p : List UInt8) (i : ℕ) :
    (readStdLe n p).testBit i = (decide (i < 8 * n) && (unit p (i / 8)).testBit (i % 8)) := by
  induction n generalizing p i with
  | zero => rw [readStdLe, Nat.zero_testBit, decide_eq_false (by omega), Bool.false_and]
  | succ n ih =>
    rw [readStdLe, ← unit_zero, Nat.add_comm, show 256 = 2 ^ 8 from rfl,
      Nat.testBit_two_pow_mul_add _ (unit_lt p 0)]
    split
    · rename_i hi
      rw [decide_eq_true (by omega), Bool.true_and, Nat.div_eq_of_lt hi, Nat.mod_eq_of_lt hi]
    · rename_i hi
      have hdiv : (i - 8) / 8 + 1 = i / 8 := by omega
      have hmod : (i - 8) % 8 = i % 8 := by omega
      rw [ih, ← unit_succ, hdiv, hmod]
      congr 1
      exact decide_eq_decide.mpr (by omega)

theorem readStdBe_lt (n : ℕ) (p : List UInt8) : readStdBe n p < 2 ^ (8 * n) := by
  induction n generalizing p with
  | zero => exact Nat.one_pos
  | succ n ih =>
    have hhead := (p.headD 0).toNat_lt
    have hpow : 256 ^ n = 2 ^ (8 * n) := by rw [Nat.pow_mul]
    have hle : (p.headD 0).toNat * 2 ^ (8 * n) ≤ 255 * 2 ^ (8 * n) :=
      Nat.mul_le_mul_right _ (Nat.le_of_lt_succ hhead)
    have ih := ih p.tail
    rw [readStdBe, hpow, Nat.mul_succ, Nat.pow_add]
    omega

theorem testBit_readStdBe (n : ℕ) (p : List UInt8) (i : ℕ) :
    (readStdBe n p).testBit i =
      (decide (i < 8 * n) && (unit p (n - 1 - i / 8)).testBit (i % 8)) := by
  induction n generalizing p i with
  | zero => rw [readStdBe, Nat.zero_testBit, decide_eq_false (by omega), Bool.false_and]
  | succ n ih =>
    have hpow : 256 ^ n = 2 ^ (8 * n) := by rw [Nat.pow_mul]
    rw [readStdBe, ← unit_zero, hpow, Nat.mul_comm, Nat.testBit_two_pow_mul_add _ (readStdBe_lt n p.tail)]
    split
    · rename_i hi
      have hsub : n - 1 - i / 8 + 1 = n + 1 - 1 - i / 8 := by omega
      rw [ih, ← unit_succ, hsub, decide_eq_true hi, decide_eq_true (by omega)]
    · rename_i hi
      by_cases hlast : i < 8 * (n + 1)
      · have hsub : n + 1 - 1 - i / 8 = 0 := by omega
        have hmod : i - 8 * n = i % 8 := by omega
        rw [decide_eq_true hlast, Bool.true_and, hsub, hmod]
      · rw [decide_eq_false hlast, Bool.false_and, testBit_unit_of_ge p 0 (by omega)]

/-! ## Signed integers -/

theorem toSigned_of_lt {length v : ℕ} (hlength : 0 < length) (hv : v < 2 ^ length) :
    toSigned length v = if 2 ^ (length - 1) ≤ v then (v : ℤ) - 2 ^ length else v := by
  have hbit : v.testBit (length - 1) = decide (2 ^ (length - 1) ≤ v) := by
    by_cases hle : 2 ^ (length - 1) ≤ v
    · rw [decide_eq_true hle]
      refine Nat.testBit_of_two_pow_le_and_two_pow_add_one_gt hle ?_
      rwa [Nat.sub_add_cancel hlength]
    · rw [decide_eq_false hle, Nat.testBit_lt_two_pow (Nat.lt_of_not_le hle)]
  rw [toSigned, hbit]
  simp only [decide_eq_true_eq]

theorem toSigned_of_sign_extended {length v : ℕ} (hlength : 0 < length) (hle : length ≤ 64)
    (hv : v < 2 ^ 64) (hhigh : ∀ i, length ≤ i → i < 64 → v.testBit i = v.testBit (length - 1)) :
    toSigned 64 v = toSigned length (v % 2 ^ length) := by
  have hsign : v.testBit 63 = v.testBit (length - 1) := by
    by_cases h64 : length = 64
    · rw [h64]
    · exact hhigh 63 (by omega) (by decide)
  have hlow : (v % 2 ^ length).testBit (length - 1) = v.testBit (length - 1) := by
    rw [Nat.testBit_mod_two_pow, decide_eq_true (by omega), Bool.true_and]
  have hpow : 2 ^ 64 = 2 ^ length * 2 ^ (64 - length) := by
    rw [← Nat.pow_add, Nat.add_sub_cancel' hle]
  have hdiv := Nat.div_add_mod v (2 ^ length)
  have hbits (i : ℕ) : (v / 2 ^ length).testBit i =
      (decide (i < 64 - length) && v.testBit (length - 1)) := by
    rw [← Nat.shiftRight_eq_div_pow, Nat.testBit_shiftRight]
    by_cases hi : i < 64 - length
    · rw [hhigh _ (Nat.le_add_right _ _) (by omega), decide_eq_true hi, Bool.true_and]
    · rw [decide_eq_false hi, Bool.false_and]
      exact Nat.testBit_lt_two_pow
        (Nat.lt_of_lt_of_le hv (Nat.pow_le_pow_right (by decide) (by omega)))
  rw [toSigned, toSigned, hlow, hsign]
  cases hs : v.testBit (length - 1) with
  | false =>
    have hzero : v / 2 ^ length = 0 := by
      refine Nat.eq_of_testBit_eq fun i => ?_
      rw [hbits, hs, Bool.and_false, Nat.zero_testBit]
    rw [hzero, Nat.mul_zero, Nat.zero_add] at hdiv
    rw [if_neg (by decide), if_neg (by decide), hdiv]
  | true =>
    have hones : v / 2 ^ length = 2 ^ (64 - length) - 1 := by
      refine Nat.eq_of_testBit_eq fun i => ?_
      rw [hbits, hs, Bool.and_true, Nat.testBit_two_pow_sub_one]
    rw [hones, Nat.mul_sub, ← hpow, Nat.mul_one] at hdiv
    have hlt : 2 ^ length ≤ 2 ^ 64 := Nat.pow_le_pow_right (by decide) hle
    have hcast : ((2 ^ length : ℕ) : ℤ) = 2 ^ length := Int.natCast_pow 2 length
    rw [if_pos rfl, if_pos rfl, ← hcast]
    omega

/-! ## Writing -/

theorem bitOf_makeMaskComplement8 {length : ℕ} (hlength : length < 8) (b : ℕ) :
    bitOf (makeMaskComplement8 length) b = (decide (b < 8) && decide (length ≤ b)) := by
  have hall (i : ℕ) (hi : i < 8) : bitOf 0xff i = true := by
    have hdec : ∀ i < 8, bitOf 0xff i = true := by decide
    exact hdec i hi
  rw [makeMaskComplement8, bitOf_shiftLeft _ hlength]
  by_cases hb : b < 8
  · rw [hall (b - length) (by omega), Bool.and_true]
  · rw [decide_eq_false hb, Bool.false_and, Bool.false_and]

theorem bitOf_makeMask8 {length : ℕ} (hlength : length < 8) {b : ℕ} (hb : b < 8) :
    bitOf (makeMask8 length) b = decide (b < length) := by
  rw [makeMask8, bitOf_not, bitOf_makeMaskComplement8 hlength, decide_eq_true hb, Bool.true_and,
    Bool.true_and, ← decide_not, decide_eq_decide, Nat.not_le]

theorem toSigned_shiftRight {v s : ℕ} (hs : s ≤ 64) (hneg : v.testBit 63 = true) :
    toSigned 64 v >>> s = ((v >>> s : ℕ) : ℤ) - 2 ^ (64 - s) := by
  have hpow : (2 : ℤ) ^ 64 = 2 ^ s * 2 ^ (64 - s) := by rw [← pow_add, Nat.add_sub_cancel' hs]
  rw [toSigned, if_pos hneg, Int.shiftRight_eq_div_pow, hpow, Nat.shiftRight_eq_div_pow]
  push_cast
  rw [Int.sub_mul_ediv_left _ _ (Int.ne_of_gt (Int.pow_pos (by decide)))]

theorem toU64_mod (v : ℤ) {k : ℕ} (hk : k ≤ 64) : ((toU64 v % 2 ^ k : ℕ) : ℤ) = v % 2 ^ k := by
  have hnonneg : 0 ≤ v % 2 ^ 64 := Int.emod_nonneg v (by decide)
  rw [toU64, Int.natCast_emod, Int.toNat_of_nonneg hnonneg, Int.natCast_pow]
  exact Int.emod_emod_of_dvd v (pow_dvd_pow 2 hk)

theorem rshift64_mod (isSigned : Bool) {v s : ℕ} (hs : s ≤ 64) :
    rshift64 isSigned v s % 2 ^ (64 - s) = v >>> s % 2 ^ (64 - s) := by
  cases isSigned with
  | false => rfl
  | true =>
    apply Int.ofNat.inj
    change ((toU64 (toSigned 64 v >>> s) % 2 ^ (64 - s) : ℕ) : ℤ) = _
    rw [toU64_mod _ (Nat.sub_le 64 s)]
    by_cases hneg : v.testBit 63 = true
    · rw [toSigned_shiftRight hs hneg, Int.sub_emod_right]
      rfl
    · rw [toSigned, if_neg hneg]
      rfl

theorem testBit_rshift64 (isSigned : Bool) {v s i : ℕ} (hi : s + i < 64) :
    (rshift64 isSigned v s).testBit i = v.testBit (s + i) := by
  have hmod := congrArg (Nat.testBit · i) (@rshift64_mod isSigned v s (by omega))
  simp only [Nat.testBit_mod_two_pow, Nat.testBit_shiftRight] at hmod
  rwa [decide_eq_true (by omega), Bool.true_and, Bool.true_and] at hmod

theorem testBit_trim {v length i : ℕ} (hi : i < length) :
    (trim v length).testBit i = v.testBit i := by
  unfold trim
  split
  · rw [Nat.testBit_and, testBit_makeMask, decide_eq_true hi, Bool.and_true]
  · rfl

section
variable {isSigned : Bool} {mem : Mem} {addr : ℕ → ℕ × ℕ} {bit : ℕ → Bool} {v length lo : ℕ}
  {u base w k rest start l thisUnit : ℕ} {c : Prop}

theorem stored_insertBits {mask cmask : UInt8} (hw : base + w ≤ 8)
    (haddr : ∀ k < w, addr (lo + k) = (u, base + k))
    (hmask : ∀ b < 8, bitOf mask b = !(decide (base ≤ b) && decide (b < base + w)))
    (hbit : ∀ k < w, bitOf cmask (base + k) = bit (lo + k)) :
    Stored mem (insertBits mem u mask cmask) addr bit lo (lo + w) := by
  refine .update haddr (fun k hk => ?_) fun b hb hout => ?_
  · have hmask := hmask (base + k) (by omega)
    rw [decide_eq_true (Nat.le_add_right base k), decide_eq_true (by omega)] at hmask
    simp [hmask, hbit k hk, show base + k < 8 by omega]
  · have hmask := hmask b hb
    rw [← Bool.decide_and, decide_eq_false hout] at hmask
    simp [hmask]

theorem bitOf_shifted (h : base + k < 8) :
    bitOf (v.toUInt8 <<< base.toUInt8) (base + k) = v.testBit k := by
  rw [bitOf_shiftLeft _ (by omega), bitOf_toUInt8, Nat.add_sub_cancel_left, decide_eq_true h,
    decide_eq_true (Nat.le_add_right base k), decide_eq_true (by omega)]
  rfl

theorem bitOf_unshifted (h : k < 8) : bitOf v.toUInt8 (0 + k) = v.testBit k := by
  rw [Nat.zero_add, bitOf_toUInt8, decide_eq_true h, Bool.true_and]

def Rest (bit : ℕ → Bool) (length k rest : ℕ) : Prop :=
  ∀ i, k + i < length → rest.testBit i = bit (k + i)

theorem Rest.rshift {k s rest : ℕ} (hlength : length ≤ 64) (h : Rest bit length k rest) :
    Rest bit length (k + s) (rshift64 isSigned rest s) := by
  intro i hi
  rw [testBit_rshift64 isSigned (by omega), h _ (by omega), Nat.add_assoc]

theorem Rest.trim : Rest v.testBit length 0 (trim v length) := by
  intro i hi
  rw [Nat.zero_add] at hi ⊢
  exact testBit_trim hi

theorem stored_whole (haddr : ∀ k < 8, addr (lo + k) = (u, 0 + k)) (hle : lo + 8 ≤ length)
    (h : Rest bit length lo rest) :
    Stored mem (Function.update mem u rest.toUInt8) addr bit lo (lo + 8) := by
  refine .update haddr (fun k hk => ?_) fun b hb hout => absurd hb (by omega)
  rw [bitOf_unshifted hk, h k (by omega)]

theorem stored_high (hbase : base < 8) (haddr : ∀ k < 8 - base, addr (lo + k) = (u, base + k))
    (hle : lo + (8 - base) ≤ length) (h : Rest bit length lo rest) :
    Stored mem (insertBits mem u (makeMask8 base) (rest.toUInt8 <<< base.toUInt8)) addr bit lo
      (lo + (8 - base)) := by
  refine stored_insertBits (by omega) haddr (fun b hb => ?_) fun k hk => ?_
  · rw [bitOf_makeMask8 hbase hb, decide_eq_true (p := b < base + (8 - base)) (by omega),
      Bool.and_true, ← decide_not, decide_eq_decide, Nat.not_le]
  · rw [bitOf_shifted (by omega), h k (by omega)]

theorem stored_low (hw : w < 8) (haddr : ∀ k < w, addr (lo + k) = (u, 0 + k))
    (hle : lo + w ≤ length) (h : Rest bit length lo rest) :
    Stored mem (insertBits mem u (makeMaskComplement8 w) rest.toUInt8) addr bit lo (lo + w) := by
  refine stored_insertBits (by omega) haddr (fun b hb => ?_) fun k hk => ?_
  · rw [bitOf_makeMaskComplement8 hw, decide_eq_true hb, Nat.zero_add,
      decide_eq_true (Nat.zero_le b), Bool.true_and, Bool.true_and, ← decide_not, decide_eq_decide,
      Nat.not_lt]
  · rw [bitOf_unshifted (by omega), h k (by omega)]

section

variable (hinj : ∀ k < length, ∀ l < length, addr k = addr l → k = l)

include hinj

theorem stored_next {n u rest : ℕ} {after : Mem} (hle : lo + 8 * (n + 1) ≤ length)
    (haddr : ∀ k < 8, addr (lo + k) = (u, k)) (h : Rest bit length lo rest)
    (hothers : Stored (Function.update mem u rest.toUInt8) after addr bit (lo + 8)
      (lo + 8 + 8 * n)) : Stored mem after addr bit lo (lo + 8 * (n + 1)) := by
  have hend : lo + 8 + 8 * n = lo + 8 * (n + 1) := by omega
  rw [hend] at hothers
  refine .trans (fun k hk l hl => hinj k (by omega) l (by omega)) (by omega) (by omega)
    (stored_whole (fun k hk => ?_) (by omega) h) hothers
  rw [haddr k hk, Nat.zero_add]

theorem stored_writeUnitsUp (hlength : length ≤ 64) (mem : Mem) (i n rest : ℕ)
    (hle : lo + 8 * n ≤ length)
    (haddr : ∀ k < 8 * n, addr (lo + k) = (i + k / 8, k % 8)) (h : Rest bit length lo rest) :
    Stored mem (writeUnitsUp isSigned i n mem rest).1 addr bit lo (lo + 8 * n) ∧
      Rest bit length (lo + 8 * n) (writeUnitsUp isSigned i n mem rest).2 := by
  induction n generalizing i mem rest lo with
  | zero => exact ⟨.refl mem addr bit lo, h⟩
  | succ n ih =>
    obtain ⟨hothers, hrest⟩ := ih (Function.update mem i rest.toUInt8) (i + 1)
      (rshift64 isSigned rest 8) (by omega) (fun k hk => by
        rw [Nat.add_assoc, haddr _ (by omega), Prod.mk.injEq]
        omega) (h.rshift hlength)
    refine ⟨stored_next hinj hle (fun k hk => ?_) h hothers, ?_⟩
    · rw [haddr k (by omega), Prod.mk.injEq]
      omega
    · rwa [Nat.add_assoc, Nat.add_comm 8] at hrest

theorem stored_writeUnitsDown (hlength : length ≤ 64) (mem : Mem) (i n rest : ℕ)
    (hle : lo + 8 * n ≤ length)
    (haddr : ∀ k < 8 * n, addr (lo + k) = (i + (n - k / 8), k % 8)) (h : Rest bit length lo rest) :
    Stored mem (writeUnitsDown isSigned i n mem rest).1 addr bit lo (lo + 8 * n) ∧
      Rest bit length (lo + 8 * n) (writeUnitsDown isSigned i n mem rest).2 := by
  induction n generalizing mem rest lo with
  | zero => exact ⟨.refl mem addr bit lo, h⟩
  | succ n ih =>
    obtain ⟨hothers, hrest⟩ := ih (Function.update mem (i + n + 1) rest.toUInt8)
      (rshift64 isSigned rest 8) (by omega) (fun k hk => by
        rw [Nat.add_assoc, haddr _ (by omega), Prod.mk.injEq]
        omega) (h.rshift hlength)
    refine ⟨stored_next hinj hle (fun k hk => ?_) h hothers, ?_⟩
    · rw [haddr k (by omega), Prod.mk.injEq]
      omega
    · rwa [Nat.add_assoc, Nat.add_comm 8] at hrest

end

theorem addrLe_inj (h : addrLe start k = addrLe start l) : k = l := by
  rw [addrLe, addrLe, Prod.mk.injEq] at h
  omega

theorem addrBe_inj {fin k l : ℕ} (hk : k < fin) (hl : l < fin) (h : addrBe fin k = addrBe fin l) :
    k = l := by
  rw [addrBe, addrBe, Prod.mk.injEq] at h
  omega

theorem stored_single [Decidable c] {u base top rest : ℕ} (hbase : base + length ≤ 8)
    (hlength : 0 < length) (haddr : ∀ k < length, addr k = (u, base + k))
    (hwhole : c → base + length = 8) (hpart : ¬c → top = base + length ∧ top < 8)
    (h : Rest bit length 0 rest) :
    Stored mem (insertBits mem u
      (if c then makeMask8 base else makeMask8 base ||| makeMaskComplement8 top)
      (rest.toUInt8 <<< base.toUInt8)) addr bit 0 length := by
  have hend : 0 + length = length := Nat.zero_add length
  have hstored := @stored_insertBits mem addr bit 0 u base length
    (if c then makeMask8 base else makeMask8 base ||| makeMaskComplement8 top)
    (rest.toUInt8 <<< base.toUInt8) hbase (fun k hk => by rw [Nat.zero_add, haddr k hk])
    (fun b hb => ?_) fun k hk => ?_
  · rwa [hend] at hstored
  · split
    · rename_i hc
      rw [bitOf_makeMask8 (by omega) hb, hwhole hc, decide_eq_true hb, Bool.and_true, ← decide_not,
        decide_eq_decide, Nat.not_le]
    · rename_i hc
      obtain ⟨rfl, htop⟩ := hpart hc
      rw [bitOf_or, bitOf_makeMask8 (by omega) hb, bitOf_makeMaskComplement8 htop,
        decide_eq_true hb, Bool.true_and, ← Bool.decide_or, ← Bool.decide_and, ← decide_not,
        decide_eq_decide]
      omega
  · rw [bitOf_shifted (by omega), h k (by omega)]

theorem stored_last [Decidable c] (hwhole : c → lo + 8 = length)
    (hpart : ¬c → w < 8 ∧ lo + w = length) (haddr : ∀ k < length - lo, addr (lo + k) = (u, k))
    (h : Rest bit length lo rest) :
    Stored mem (if c then Function.update mem u rest.toUInt8
      else insertBits mem u (makeMaskComplement8 w) rest.toUInt8) addr bit lo length := by
  have haddr (k : ℕ) (hk : k < length - lo) : addr (lo + k) = (u, 0 + k) := by
    rw [haddr k hk, Nat.zero_add]
  split
  · rename_i hc
    have hend := hwhole hc
    have hstored := @stored_whole mem addr bit length lo u rest (fun k hk => haddr k (by omega))
      hend.le h
    rwa [hend] at hstored
  · rename_i hc
    obtain ⟨hw, hend⟩ := hpart hc
    have hstored := @stored_low mem addr bit length lo u w rest hw (fun k hk => haddr k (by omega))
      hend.le h
    rwa [hend] at hstored

theorem stored_writeLeFrom (hle : length ≤ 64) (hunit : start + lo = 8 * thisUnit)
    (hlast : 8 * thisUnit < start + length) (hrest : Rest bit length lo rest) :
    Stored mem (writeLeFrom isSigned (start + length) thisUnit mem rest) (addrLe start) bit lo
      length := by
  obtain ⟨hunits, hrest'⟩ := @stored_writeUnitsUp isSigned (addrLe start) bit length lo
    (fun k _ l _ h => addrLe_inj h) hle mem thisUnit ((start + length + 7) / 8 - 1 - thisUnit) rest
    (by omega) (fun k hk => by rw [addrLe, Prod.mk.injEq]; omega) hrest
  refine .trans (fun k _ l _ h => addrLe_inj h) (by omega) (by omega) hunits
    (stored_last (by omega) (by omega) (fun k hk => ?_) hrest')
  rw [addrLe, Prod.mk.injEq]
  omega

theorem stored_writeLe (hlength : 0 < length) (hle : length ≤ 64) (start : ℕ) :
    Stored mem (writeLe isSigned mem start length v) (addrLe start) v.testBit 0 length := by
  have hrest := @Rest.trim v length
  unfold writeLe
  rw [if_neg (by omega)]
  dsimp only
  split
  · rename_i hunit
    refine stored_single (by omega) hlength (fun k hk => ?_) (by omega) (by omega) hrest
    rw [addrLe, Prod.mk.injEq]
    omega
  · rename_i hunit
    split
    · rename_i hstart
      exact stored_writeLeFrom hle (by omega) (by omega) hrest
    · rename_i hstart
      have hfirst := @stored_high mem (addrLe start) v.testBit length 0 (start / 8) (start % 8)
        (trim v length) (by omega) (fun k hk => by rw [addrLe, Prod.mk.injEq]; omega) (by omega)
        hrest
      exact .trans (fun k _ l _ h => addrLe_inj h) (by omega) (by omega) hfirst
        (stored_writeLeFrom hle (by omega) (by omega) (hrest.rshift hle))

theorem stored_writeBeFrom (hle : length ≤ 64) (hunit : start + length = 8 * (thisUnit + 1) + lo)
    (hfirst : start / 8 ≤ thisUnit) (hrest : Rest bit length lo rest) :
    Stored mem (writeBeFrom isSigned start thisUnit mem rest) (addrBe (start + length)) bit lo
      length := by
  have hinj : ∀ k < length, ∀ l < length,
      addrBe (start + length) k = addrBe (start + length) l → k = l :=
    fun k hk l hl h => addrBe_inj (by omega) (by omega) h
  obtain ⟨hunits, hrest'⟩ := @stored_writeUnitsDown isSigned (addrBe (start + length)) bit length lo
    hinj hle mem (start / 8) (thisUnit - start / 8) rest (by omega)
    (fun k hk => by rw [addrBe, Prod.mk.injEq]; omega) hrest
  refine .trans hinj (by omega) (by omega) hunits
    (stored_last (by omega) (by omega) (fun k hk => ?_) hrest')
  rw [addrBe, Prod.mk.injEq]
  omega

theorem stored_writeBe (hlength : 0 < length) (hle : length ≤ 64) (start : ℕ) :
    Stored mem (writeBe isSigned mem start length v) (addrBe (start + length)) v.testBit 0
      length := by
  have hrest := @Rest.trim v length
  unfold writeBe
  rw [if_neg (by omega)]
  dsimp only
  split
  · rename_i hunit
    refine stored_single (by omega) hlength (fun k hk => ?_) (by omega) (by omega) hrest
    rw [addrBe, Prod.mk.injEq]
    omega
  · rename_i hunit
    split
    · rename_i hfin
      exact stored_writeBeFrom hle (by omega) (by omega) hrest
    · rename_i hfin
      have hfirst := @stored_high mem (addrBe (start + length)) v.testBit length 0
        ((start + length + 7) / 8 - 1) (8 - (start + length) % 8) (trim v length) (by omega)
        (fun k hk => by rw [addrBe, Prod.mk.injEq]; omega) (by omega) hrest
      have hend : 0 + (8 - (8 - (start + length) % 8)) = 0 + (start + length) % 8 := by omega
      rw [hend] at hfirst
      exact .trans (fun k hk l hl h => addrBe_inj (by omega) (by omega) h) (by omega) (by omega)
        hfirst (stored_writeBeFrom hle (by omega) (by omega) (hrest.rshift hle))

end

end Babeltrace.Bitfield
