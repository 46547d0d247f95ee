import Babeltrace.CtfserRoundTrip

/-!
# Readers of fixed-length integers

The readers of standard lengths give what the generic ones give at a byte-aligned head.
-/
namespace Babeltrace.ItemSeq
open Bitfield Ctfser Program UnitBits

/-! ## Reversal of 64 bits -/

theorem xor_xor_xor_comm (a b c d : ℕ) : (a ^^^ b) ^^^ (c ^^^ d) = (a ^^^ c) ^^^ (b ^^^ d) := by
  ac_rfl

theorem swapBits_xor (mask shift a b : ℕ) :
    swapBits mask shift (a ^^^ b) = swapBits mask shift a ^^^ swapBits mask shift b := by
  simp only [swapBits, Nat.shiftRight_xor_distrib, Nat.and_xor_distrib_right,
    Nat.shiftLeft_xor_distrib, ← Nat.xor_mod_two_pow]
  congr 1
  ac_rfl

theorem swapBits_lt (mask shift p : ℕ) : swapBits mask shift p < 2 ^ 64 := Nat.mod_lt _ (by decide)

theorem swapPairs_eq (v : ℕ) :
    (v >>> 1 &&& 0x5555555555555555) ||| (v &&& 0x5555555555555555) <<< 1 =
      (v >>> 1 &&& 0x5555555555555555) ^^^ (v &&& 0x5555555555555555) <<< 1 := by
  have hmasks : (0x5555555555555555 : ℕ) &&& 0x5555555555555555 <<< 1 = 0 := by decide +kernel
  refine or_eq_xor ?_
  rw [Nat.shiftLeft_and_distrib, Nat.and_comm (v <<< 1), Nat.and_assoc,
    ← Nat.and_assoc 0x5555555555555555, hmasks, Nat.zero_and, Nat.and_zero]

theorem rotate_eq {v : ℕ} (hv : v < 2 ^ 64) : v >>> 34 ||| v <<< 30 = v >>> 34 ^^^ v <<< 30 := by
  refine or_eq_xor (Nat.eq_of_testBit_eq fun i => ?_)
  rw [Nat.testBit_and, Nat.testBit_shiftRight, Nat.testBit_shiftLeft, Nat.zero_testBit]
  by_cases hi : 30 ≤ i
  · rw [Nat.testBit_lt_two_pow (hv.trans_le (Nat.pow_le_pow_right (by decide) (by omega))),
      Bool.false_and]
  · rw [decide_eq_false hi, Bool.false_and, Bool.and_false]

theorem reverse64_xor (a b : ℕ) : reverse64 (a ^^^ b) = reverse64 a ^^^ reverse64 b := by
  have hpairs : ((a ^^^ b) >>> 1 &&& 0x5555555555555555) ^^^ ((a ^^^ b) &&& 0x5555555555555555) <<< 1 =
      ((a >>> 1 &&& 0x5555555555555555) ^^^ (a &&& 0x5555555555555555) <<< 1) ^^^
        ((b >>> 1 &&& 0x5555555555555555) ^^^ (b &&& 0x5555555555555555) <<< 1) := by
    rw [Nat.shiftRight_xor_distrib, Nat.and_xor_distrib_right, Nat.and_xor_distrib_right,
      Nat.shiftLeft_xor_distrib, xor_xor_xor_comm]
  have hrotate (v w : ℕ) : ((v ^^^ w) >>> 34 ^^^ (v ^^^ w) <<< 30) % 2 ^ 64 =
      (v >>> 34 ^^^ v <<< 30) % 2 ^ 64 ^^^ (w >>> 34 ^^^ w <<< 30) % 2 ^ 64 := by
    rw [← Nat.xor_mod_two_pow, Nat.shiftRight_xor_distrib, Nat.shiftLeft_xor_distrib,
      xor_xor_xor_comm]
  simp only [reverse64, swapPairs_eq, rotate_eq (swapBits_lt _ _ _)]
  simp only [hpairs, swapBits_xor, hrotate]

theorem reverse64_two_pow : ∀ k < 64, reverse64 (2 ^ k) = 2 ^ (63 - k) := by
  decide +kernel

theorem testBit_reverse64 {v : ℕ} (hv : v < 2 ^ 64) :
    ∀ i < 64, (reverse64 v).testBit i = v.testBit (63 - i) := by
  -- The reversal is linear: powers of two are enough.
  refine xor_induction (P := fun v => ∀ i < 64, (reverse64 v).testBit i = v.testBit (63 - i))
    ?zero ?pow ?xor hv
  case zero => exact fun i _ => by rw [Nat.zero_testBit, show reverse64 0 = 0 by decide, Nat.zero_testBit]
  case pow =>
    intro k hk i hi
    rw [reverse64_two_pow k hk, Nat.testBit_two_pow, Nat.testBit_two_pow]
    exact decide_eq_decide.mpr (by omega)
  case xor =>
    intro a b ha hb i hi
    rw [reverse64_xor, Nat.testBit_xor, Nat.testBit_xor, ha i hi, hb i hi]

/-! ## Reversal of any number of bits -/

/-- The `n` low bits in the reverse order -/
def mirror (n v : ℕ) : ℕ := Nat.ofBits fun i : Fin n => v.testBit (n - 1 - i)

theorem testBit_mirror (n v i : ℕ) :
    (mirror n v).testBit i = (decide (i < n) && v.testBit (n - 1 - i)) := by
  rw [mirror, Nat.testBit_ofBits]
  by_cases hi : i < n
  · rw [dif_pos hi, decide_eq_true hi, Bool.true_and]
  · rw [dif_neg hi, decide_eq_false hi, Bool.false_and]

theorem mirror_mirror (n v : ℕ) : mirror n (mirror n v) = v % 2 ^ n := by
  refine Nat.eq_of_testBit_eq fun i => ?_
  rw [testBit_mirror, testBit_mirror, Nat.testBit_mod_two_pow]
  by_cases hi : i < n
  · have hback : n - 1 - (n - 1 - i) = i := by omega
    rw [decide_eq_true hi, decide_eq_true (by omega : n - 1 - i < n), hback, Bool.true_and]
  · rw [decide_eq_false hi, Bool.false_and, Bool.false_and]

theorem mirror_mod (n v : ℕ) : mirror n (v % 2 ^ n) = mirror n v := by
  refine Nat.eq_of_testBit_eq fun i => ?_
  rw [testBit_mirror, testBit_mirror, Nat.testBit_mod_two_pow]
  by_cases hi : i < n
  · rw [decide_eq_true (by omega : n - 1 - i < n), Bool.true_and]
  · rw [decide_eq_false hi, Bool.false_and, Bool.false_and]

section
variable {isSigned : Bool} {v : ℤ} {n : ℕ}

theorem shiftRight_reverse64 {v : ℕ} (hv : v < 2 ^ 64) (hn : n ≤ 64) :
    reverse64 v >>> (64 - n) = mirror n v := by
  refine Nat.eq_of_testBit_eq fun i => ?_
  rw [Nat.testBit_shiftRight, testBit_mirror]
  by_cases hi : i < n
  · have hindex : 63 - (64 - n + i) = n - 1 - i := by omega
    rw [testBit_reverse64 hv _ (by omega), hindex, decide_eq_true hi, Bool.true_and]
  · have hlt : reverse64 v < 2 ^ 64 := Nat.mod_lt _ (by decide)
    rw [decide_eq_false hi, Bool.false_and]
    exact Nat.testBit_lt_two_pow (hlt.trans_le (Nat.pow_le_pow_right (by decide) (by omega)))

theorem reverseFixedLenIntBits_eq (hpos : 0 < n) (hle : n ≤ 64) :
    reverseFixedLenIntBits isSigned v n = lowVal isSigned n (mirror n (toU64 v)) := by
  have hu : toU64 v < 2 ^ 64 := by
    have hmod := toU64_mod v (Nat.le_refl 64)
    unfold toU64
    omega
  have hshift := shiftRight_reverse64 hu hle
  have hmirror : mirror n (toU64 v) < 2 ^ n := Nat.ofBits_lt_two_pow _
  rw [lowVal, Nat.mod_eq_of_lt hmirror, reverseFixedLenIntBits]
  cases isSigned with
  | false => rw [if_neg (by decide), if_neg (by decide), hshift]
  | true =>
    have hsign : (mirror n (toU64 v)).testBit (n - 1) = (reverse64 (toU64 v)).testBit 63 := by
      rw [← hshift, Nat.testBit_shiftRight, show 64 - n + (n - 1) = 63 by omega]
    rw [if_pos rfl, if_pos rfl, toSigned.eq_def n, hsign]
    split
    · rename_i hneg
      rw [toSigned_shiftRight (by omega) hneg, hshift, Nat.sub_sub_self hle]
    · rename_i hneg
      rw [toSigned, if_neg hneg, ← hshift]
      rfl

theorem toU64_lowVal (hle : n ≤ 64) (w : ℕ) : toU64 (lowVal isSigned n w) % 2 ^ n = w % 2 ^ n := by
  have hmod := toU64_mod (lowVal isSigned n w) hle
  have hcast : (((w % 2 ^ n : ℕ) : ℤ)) % 2 ^ n = ((w % 2 ^ n : ℕ) : ℤ) := by
    have hpow : ((2 ^ n : ℕ) : ℤ) = 2 ^ n := Int.natCast_pow 2 n
    rw [← hpow, ← Int.natCast_emod, Nat.mod_mod]
  rw [← Int.natCast_inj, hmod, lowVal]
  split
  · rw [toSigned]
    split
    · rw [Int.sub_emod_right, hcast]
    · exact hcast
  · exact hcast

theorem reverseFixedLenIntBits_involutive (hpos : 0 < n) (hle : n ≤ 64)
    (hv : Representable isSigned n v) :
    reverseFixedLenIntBits isSigned (reverseFixedLenIntBits isSigned v n) n = v := by
  have hlow : lowVal isSigned n (toU64 v % 2 ^ n) = lowVal isSigned n (toU64 v) := by
    rw [lowVal, lowVal, Nat.mod_mod]
  rw [reverseFixedLenIntBits_eq hpos hle, reverseFixedLenIntBits_eq hpos hle, ← mirror_mod,
    toU64_lowVal hle, mirror_mod, mirror_mirror, hlow, hv.lowVal_toU64 hpos hle]

end

/-! ## Readers of standard lengths -/

section
variable {isSigned isRev : Bool} {byteOrder : ByteOrder} {len : ℕ}

theorem readStdInt_eq_readBitInt (hlen : len ∈ [8, 16, 32, 64]) (bytes : List UInt8) :
    readStdInt isSigned ⟨len, byteOrder, isRev⟩ bytes =
      readBitInt isSigned ⟨0, byteOrder, isRev⟩ bytes 0 len := by
  obtain ⟨n, rfl, hpos, hle⟩ : ∃ n, len = 8 * n ∧ 0 < 8 * n ∧ 8 * n ≤ 64 := by
    simp only [List.mem_cons, List.not_mem_nil, or_false] at hlen
    exact ⟨len / 8, by omega, by omega, by omega⟩
  have hholds : Holds byteOrder (memOf bytes) 0 (8 * n)
      (Nat.ofBits fun k : Fin (8 * n) => bitAt (memOf bytes) (fieldAddr byteOrder 0 (8 * n) k)) :=
    fun k hk => by rw [Nat.testBit_ofBits_lt _ _ hk]
  have hstd := @readStdInt_eq isSigned _ bytes ⟨8 * n, byteOrder, false⟩ n rfl rfl hholds
  have hbits := @readBitInt_eq isSigned 0 _ _ bytes ⟨0, byteOrder, false⟩ hpos hle rfl hholds
  cases isRev with
  | false => exact hstd.trans hbits.symm
  | true => exact congrArg (reverseFixedLenIntBits isSigned · (8 * n)) (hstd.trans hbits.symm)

theorem readFixedLenInt_std (hlen : len ∈ [8, 16, 32, 64]) (m : Medium) {fc : FixedLenBitArrayFc}
    (hfc : fc.len = len) {d : Dec} (hhead : d.headOffsetInCurPkt % 8 = 0) :
    readFixedLenInt m isSigned ⟨len, byteOrder, isRev⟩ fc d =
      readFixedLenInt m isSigned ⟨0, byteOrder, isRev⟩ fc d := by
  have hne : len ≠ 0 := by
    rintro rfl
    exact absurd hlen (by decide)
  have hdiv : (0 + len + 7) / 8 = len / 8 := by
    simp only [List.mem_cons, List.not_mem_nil, or_false] at hlen
    omega
  simp only [readFixedLenInt, bind_apply, get_apply, if_neg hne, if_true]
  cases hreq : requireContentData m fc.len d with
  | error e d₁ => rfl
  | ok _ d₁ =>
    have hhead₁ : d₁.headOffsetInCurPkt % 8 = 0 := by
      rw [(requireContentData_requests m fc.len).ok hreq]
      exact hhead
    have hcheck : checkLastByteOrder fc d₁ = .ok () d₁ := by
      simp only [checkLastByteOrder, get_bind_apply]
      cases d₁.lastFixedLenBitArrayFieldByteOrder with
      | none => rfl
      | some last => exact congrFun (if_neg fun h => h.1 hhead₁) d₁
    simp only [hhead₁, hcheck, hfc, hdiv, readStdInt_eq_readBitInt hlen]

end

theorem readers_agree :
    (∀ isSigned byteOrder isRev bytes len, len ∈ [8, 16, 32, 64] →
      readStdInt isSigned ⟨len, byteOrder, isRev⟩ bytes =
        readBitInt isSigned ⟨0, byteOrder, isRev⟩ bytes 0 len ∧
      ∀ m fc d, fc.len = len → d.headOffsetInCurPkt % 8 = 0 →
        readFixedLenInt m isSigned ⟨len, byteOrder, isRev⟩ fc d =
          readFixedLenInt m isSigned ⟨0, byteOrder, isRev⟩ fc d) ∧
    ∀ isSigned v n, 0 < n → n ≤ 64 →
      reverseFixedLenIntBits isSigned v n =
        (if isSigned then toSigned n (mirror n (toU64 v)) else mirror n (toU64 v)) ∧
      (Representable isSigned n v →
        reverseFixedLenIntBits isSigned (reverseFixedLenIntBits isSigned v n) n = v) := by
  refine ⟨fun isSigned byteOrder isRev bytes len hlen => ⟨readStdInt_eq_readBitInt hlen bytes,
    fun m fc d hfc hhead => readFixedLenInt_std hlen m hfc hhead⟩, fun isSigned v n hpos hle =>
    ⟨?_, reverseFixedLenIntBits_involutive hpos hle⟩⟩
  have hmirror : mirror n (toU64 v) < 2 ^ n := Nat.ofBits_lt_two_pow _
  rw [reverseFixedLenIntBits_eq hpos hle, lowVal, Nat.mod_eq_of_lt hmirror]

theorem readers_agree_sixteen :
    readStdInt true ⟨16, .little, true⟩ [0x01, 0x80, 0, 0, 0, 0, 0, 0] =
        readBitInt true ⟨0, .little, true⟩ [0x01, 0x80, 0, 0, 0, 0, 0, 0] 0 16 ∧
      reverseFixedLenIntBits true (reverseFixedLenIntBits true 11 5) 5 = 11 :=
  ⟨(readers_agree.1 _ _ _ _ 16 (by decide)).1,
    (readers_agree.2 true 11 5 (by decide) (by decide)).2 (by decide)⟩

end Babeltrace.ItemSeq
