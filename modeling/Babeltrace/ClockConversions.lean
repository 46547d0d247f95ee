import Babeltrace.Clock
import Babeltrace.CLib

/-!
# Clock value conversions

`bt_common_clock_value_from_ns_from_origin()` guards its signed products against large positive
operands only, and takes the cycles and the frequency as signed integers.
-/
namespace Babeltrace.TraceIr

/-- `x` is the value of a signed 64-bit integer. -/
def InInt64 (x : ℤ) : Prop := -2 ^ 63 ≤ x ∧ x < 2 ^ 63

instance (x : ℤ) : Decidable (InInt64 x) := inferInstanceAs (Decidable (_ ∧ _))

namespace ClockClass

def exactOffset (cc : ClockClass) : ℤ :=
  cc.offsetSeconds.toInt * 1000000000 +
    (cc.offsetCycles.toNat * 1000000000 / cc.frequency.toNat : ℕ)

def exactValue (cc : ClockClass) (nsFromOrigin : Int64) : ℤ :=
  (nsFromOrigin.toInt - cc.exactOffset) * cc.frequency.toNat / 1000000000

structure NoWrap (cc : ClockClass) (nsFromOrigin : Int64) : Prop where
  /-- `cc_offset_seconds * NS_PER_S_I` -/
  seconds : safeToMulInt64 cc.offsetSeconds 1000000000 = true →
    InInt64 (cc.offsetSeconds.toInt * 1000000000)
  /-- `(int64_t) cc_offset_cycles` -/
  cyclesCast : safeToMulInt64 cc.offsetSeconds 1000000000 = true → InInt64 cc.offsetCycles.toNat
  /-- `(int64_t) cc_offset_cycles * NS_PER_S_I` and `(int64_t) cc_freq` -/
  cycles : safeToMulInt64 cc.offsetSeconds 1000000000 = true → cc.frequency ≠ 1000000000 →
    safeToMulInt64 cc.offsetCycles.toInt64 1000000000 = true →
    InInt64 (cc.offsetCycles.toInt64.toInt * 1000000000) ∧ InInt64 cc.frequency.toNat
  /-- `offset_in_ns += ns_to_add` -/
  sum : cc.offsetInNs ≠ none → InInt64 cc.exactOffset
  /-- `ns_from_origin - offset_in_ns` -/
  difference : ∀ offset ∈ cc.offsetInNs, offset ≤ nsFromOrigin →
    InInt64 (nsFromOrigin.toInt - offset.toInt)

def Fits (cc : ClockClass) (nsFromOrigin : Int64) : Prop :=
  -9223372036 ≤ cc.offsetSeconds.toInt ∧ (cc.offsetSeconds.toInt < 9223372036 →
    if cc.frequency = 1000000000 then nsFromOrigin.toInt - cc.exactOffset < 2 ^ 63
    else cc.offsetCycles.toNat < 2 ^ 63 ∧ (cc.offsetCycles.toNat < 9223372036 →
      cc.frequency.toNat < 2 ^ 63 ∧ nsFromOrigin.toInt - cc.exactOffset < 2 ^ 63))

end ClockClass

/-! ## Machine integers -/

theorem bmod_eq {x : ℤ} (h : InInt64 x) : x.bmod (2 ^ 64) = x := by
  obtain ⟨hlow, hhigh⟩ := h
  exact Int.bmod_eq_of_le_mul_two (by omega) (by omega)

theorem safeToMulInt64_iff (x : Int64) :
    safeToMulInt64 x 1000000000 = true ↔ x.toInt < 9223372036 := by
  have hmax : (Int64.maxValue / 1000000000).toInt = 9223372036 := by decide
  rw [safeToMulInt64]
  split
  · rename_i h
    obtain rfl := h.resolve_right (by decide)
    simp
  · rw [decide_eq_true_eq, Int64.lt_iff_toInt_lt, hmax]

theorem lt_of_safeToMulUInt64 {a b : UInt64} (h : safeToMulUInt64 a b = true) :
    a.toNat * b.toNat < 2 ^ 64 := by
  rw [safeToMulUInt64] at h
  split at h
  · rename_i h0
    obtain rfl | rfl := h0 <;> simp
  · rw [decide_eq_true_eq, UInt64.lt_iff_toNat_lt, UInt64.toNat_div] at h
    have hmul := Nat.mul_le_of_le_div _ _ _ (Nat.succ_le_of_lt h)
    rw [Nat.succ_mul] at hmul
    have hmax : (0xffffffffffffffff : UInt64).toNat = 2 ^ 64 - 1 := by decide
    omega

theorem safeToMulUInt64_of_lt {a b : UInt64} (h : (a.toNat + 1) * b.toNat < 2 ^ 64) :
    safeToMulUInt64 a b = true := by
  rw [safeToMulUInt64]
  split
  · rfl
  · rename_i h0
    have hmax : (0xffffffffffffffff : UInt64).toNat = 2 ^ 64 - 1 := by decide
    have hb : 0 < b.toNat := by
      by_contra hb
      exact h0 (.inr (UInt64.toNat_inj.mp (by simpa using hb)))
    rw [decide_eq_true_eq, UInt64.lt_iff_toNat_lt, UInt64.toNat_div, hmax]
    exact (Nat.le_div_iff_mul_le hb).mpr (Nat.le_sub_one_of_lt h)

theorem safeToAddUInt64_of_lt {a b : UInt64} (h : a.toNat + b.toNat < 2 ^ 64) :
    safeToAddUInt64 a b = true := by
  have hmax : (0xffffffffffffffff : UInt64).toNat = 2 ^ 64 - 1 := by decide
  rw [safeToAddUInt64, decide_eq_true_eq, UInt64.le_iff_toNat_le,
    UInt64.toNat_sub_of_le _ _ (UInt64.le_iff_toNat_le.mpr (by omega))]
  omega

theorem le_of_safeToAddUInt64 {a b : UInt64} (h : safeToAddUInt64 a b = true) :
    a.toNat + b.toNat < 2 ^ 64 := by
  have hmax : (0xffffffffffffffff : UInt64).toNat = 2 ^ 64 - 1 := by decide
  have hb := b.toNat_lt
  rw [safeToAddUInt64, decide_eq_true_eq, UInt64.le_iff_toNat_le,
    UInt64.toNat_sub_of_le _ _ (UInt64.le_iff_toNat_le.mpr (by omega))] at h
  omega

theorem periods_add_rem (v f : ℕ) {k : ℕ} (hk : 0 < k) : f * (v % k) / k + v / k * f = v * f / k := by
  have hsplit : v * f = f * (v % k) + v / k * f * k := by
    nth_rewrite 1 [← Nat.div_add_mod v k]
    ring
  rw [hsplit, Nat.add_mul_div_right _ _ hk]

theorem toNat_sub_periods (v : UInt64) :
    (v - v / 1000000000 * 1000000000).toNat = v.toNat % 1000000000 := by
  have hone : (1000000000 : UInt64).toNat = 1000000000 := by decide
  have hv := v.toNat_lt
  have hmul : (v / 1000000000 * 1000000000).toNat = v.toNat / 1000000000 * 1000000000 := by
    rw [UInt64.toNat_mul, UInt64.toNat_div, hone, Nat.mod_eq_of_lt (by omega)]
  rw [UInt64.toNat_sub_of_le _ _ (UInt64.le_iff_toNat_le.mpr (by omega)), hmul]
  omega

theorem toNat_periods_add_rem {v frequency : UInt64}
    (hperiods : (v / 1000000000).toNat * frequency.toNat < 2 ^ 64)
    (hrem : frequency.toNat * (v - v / 1000000000 * 1000000000).toNat < 2 ^ 64)
    (hsum : (frequency * (v - v / 1000000000 * 1000000000) / 1000000000).toNat +
      (v / 1000000000 * frequency).toNat < 2 ^ 64) :
    (frequency * (v - v / 1000000000 * 1000000000) / 1000000000 +
      v / 1000000000 * frequency).toNat = v.toNat * frequency.toNat / 1000000000 := by
  have hone : (1000000000 : UInt64).toNat = 1000000000 := by decide
  have hdiv : (v / 1000000000).toNat = v.toNat / 1000000000 := by rw [UInt64.toNat_div, hone]
  have hsub := toNat_sub_periods v
  rw [hsub] at hrem
  rw [hdiv] at hperiods
  rw [UInt64.toNat_add, Nat.mod_eq_of_lt hsum, UInt64.toNat_div, UInt64.toNat_mul, hsub, hone,
    Nat.mod_eq_of_lt hrem, UInt64.toNat_mul, hdiv, Nat.mod_eq_of_lt hperiods]
  exact periods_add_rem _ _ (by decide)

namespace ClockClass

variable {cc : ClockClass} {nsFromOrigin : Int64} {offset : Int64} {value : UInt64}

theorem guard_eq_some {p : Prop} [Decidable p] {u : Unit} (h : (guard p : Option Unit) = some u) :
    p := by
  by_contra hp
  rw [guard, if_neg hp] at h
  cases h

theorem toNat_valueInNs (h : offset ≤ nsFromOrigin) :
    ((nsFromOrigin - offset).toUInt64.toNat : ℤ) = nsFromOrigin.toInt - offset.toInt := by
  have hlow := offset.le_toInt
  have hhigh := nsFromOrigin.toInt_lt
  have hmod : (nsFromOrigin.toInt - offset.toInt).bmod (2 ^ 64) % 2 ^ 64 =
      (nsFromOrigin.toInt - offset.toInt) % 2 ^ 64 := Int.bmod_emod
  rw [Int64.le_iff_toInt_le] at h
  rw [CLib.toNat_toUInt64, Int64.toInt_sub, hmod]
  exact Int.emod_eq_of_lt (by omega) (by omega)

theorem toNat_of_valueFromNsFromOrigin
    (h : cc.valueFromNsFromOrigin nsFromOrigin = some value) :
    ∃ offset, cc.offsetInNs = some offset ∧ offset ≤ nsFromOrigin ∧
      (value.toNat : ℤ) =
        (nsFromOrigin.toInt - offset.toInt) * cc.frequency.toNat / 1000000000 := by
  obtain ⟨offset, hoffset, h⟩ := Option.bind_eq_some_iff.mp h
  obtain ⟨_, hle, h⟩ := Option.bind_eq_some_iff.mp h
  obtain ⟨_, -, h⟩ := Option.bind_eq_some_iff.mp h
  obtain ⟨_, hperiods, h⟩ := Option.bind_eq_some_iff.mp h
  obtain ⟨_, hrem, h⟩ := Option.bind_eq_some_iff.mp h
  obtain ⟨_, hsum, h⟩ := Option.bind_eq_some_iff.mp h
  replace hle := guard_eq_some hle
  refine ⟨offset, hoffset, hle, ?_⟩
  rw [← toNat_valueInNs hle, ← Option.some.inj h,
    toNat_periods_add_rem (lt_of_safeToMulUInt64 (guard_eq_some hperiods))
      (lt_of_safeToMulUInt64 (guard_eq_some hrem)) (le_of_safeToAddUInt64 (guard_eq_some hsum))]
  norm_cast

theorem valueFromNsFromOrigin_mono {nsFromOrigin' : Int64} {value' : UInt64}
    (hle : nsFromOrigin ≤ nsFromOrigin') (h : cc.valueFromNsFromOrigin nsFromOrigin = some value)
    (h' : cc.valueFromNsFromOrigin nsFromOrigin' = some value') : value ≤ value' := by
  obtain ⟨offset, hoffset, -, hvalue⟩ := toNat_of_valueFromNsFromOrigin h
  obtain ⟨offset', hoffset', -, hvalue'⟩ := toNat_of_valueFromNsFromOrigin h'
  rw [hoffset] at hoffset'
  cases hoffset'
  rw [Int64.le_iff_toInt_le] at hle
  rw [UInt64.le_iff_toNat_le, ← Int.ofNat_le, hvalue, hvalue']
  exact Int.ediv_le_ediv (by decide)
    (Int.mul_le_mul_of_nonneg_right (by omega) (Int.natCast_nonneg _))

/-! ## The offset part -/

theorem offsetCyclesNs_lt (cc : ClockClass) :
    cc.offsetCycles.toNat * 1000000000 / cc.frequency.toNat < 1000000000 := by
  have hlt := UInt64.lt_iff_toNat_lt.mp cc.offsetCycles_lt
  exact Nat.div_lt_of_lt_mul (Nat.mul_lt_mul_of_pos_right hlt (by decide))

def nsToAdd (cc : ClockClass) : Option Int64 :=
  if cc.frequency = 1000000000 then some cc.offsetCycles.toInt64
  else if safeToMulInt64 cc.offsetCycles.toInt64 1000000000 then
    some (cc.offsetCycles.toInt64 * 1000000000 / cc.frequency.toInt64)
  else none

theorem offsetInNs_eq (cc : ClockClass) : cc.offsetInNs =
    (guard (safeToMulInt64 cc.offsetSeconds 1000000000) : Option Unit).bind fun _ =>
      cc.nsToAdd.bind fun ns =>
        (guard (safeToAddInt64 (cc.offsetSeconds * 1000000000) ns) : Option Unit).bind fun _ =>
          some (cc.offsetSeconds * 1000000000 + ns) := by
  rw [offsetInNs, nsToAdd]
  split
  · rfl
  · split <;> rfl

theorem exists_nsToAdd (h : cc.frequency = 1000000000 ∨
    cc.offsetCycles.toNat < 9223372036 ∧ cc.frequency.toNat < 2 ^ 63) :
    ∃ ns, cc.nsToAdd = some ns ∧
      ns.toInt = (cc.offsetCycles.toNat * 1000000000 / cc.frequency.toNat : ℕ) := by
  have hlt := UInt64.lt_iff_toNat_lt.mp cc.offsetCycles_lt
  have hcast := CLib.toInt_toInt64 cc.offsetCycles
  by_cases hfreq : cc.frequency = 1000000000
  · have hfreqNat : cc.frequency.toNat = 1000000000 := by rw [hfreq]; decide
    refine ⟨_, if_pos hfreq, ?_⟩
    rw [hcast, if_pos (by omega), hfreqNat, Nat.mul_div_cancel _ (by decide)]
  · obtain ⟨hcycles, hfreq63⟩ := h.resolve_left hfreq
    rw [if_pos (by omega)] at hcast
    have hfreqCast := CLib.toInt_toInt64 cc.frequency
    rw [if_pos hfreq63] at hfreqCast
    have hsafe : safeToMulInt64 cc.offsetCycles.toInt64 1000000000 = true := by
      rw [safeToMulInt64_iff, hcast]
      omega
    refine ⟨_, by rw [nsToAdd, if_neg hfreq, if_pos hsafe], ?_⟩
    have hone : (1000000000 : Int64).toInt = (1000000000 : ℕ) := by decide
    have hmul : (cc.offsetCycles.toInt64 * 1000000000).toInt =
        (cc.offsetCycles.toNat * 1000000000 : ℕ) := by
      rw [Int64.toInt_mul, hcast, hone, ← Int.natCast_mul, bmod_eq ⟨by omega, by omega⟩]
    have hns := cc.offsetCyclesNs_lt
    rw [Int64.toInt_div, hmul, hfreqCast, ← Int.ofNat_tdiv]
    generalize cc.offsetCycles.toNat * 1000000000 / cc.frequency.toNat = q at hns
    exact bmod_eq ⟨by omega, by omega⟩

theorem guard_pos {p : Prop} [Decidable p] (h : p) : (guard p : Option Unit) = some () := if_pos h

theorem exists_offsetInNs (hlow : -9223372036 ≤ cc.offsetSeconds.toInt)
    (hhigh : cc.offsetSeconds.toInt < 9223372036) (hcycles : cc.frequency = 1000000000 ∨
      cc.offsetCycles.toNat < 9223372036 ∧ cc.frequency.toNat < 2 ^ 63) :
    ∃ offset, cc.offsetInNs = some offset ∧ offset.toInt = cc.exactOffset := by
  obtain ⟨ns, hns, hnsInt⟩ := exists_nsToAdd hcycles
  have hlt := cc.offsetCyclesNs_lt
  rw [exactOffset, ← hnsInt]
  generalize cc.offsetCycles.toNat * 1000000000 / cc.frequency.toNat = q at hnsInt hlt
  have hone : (1000000000 : Int64).toInt = 1000000000 := by decide
  have hmul : (cc.offsetSeconds * 1000000000).toInt = cc.offsetSeconds.toInt * 1000000000 := by
    rw [Int64.toInt_mul, hone, bmod_eq ⟨by omega, by omega⟩]
  have hmax : (Int64.maxValue - ns).toInt = 2 ^ 63 - 1 - ns.toInt := by
    rw [Int64.toInt_sub, Int64.toInt_maxValue, bmod_eq ⟨by omega, by omega⟩]
  have hsafe : safeToAddInt64 (cc.offsetSeconds * 1000000000) ns = true := by
    rw [safeToAddInt64, decide_eq_true_eq, Int64.le_iff_toInt_le, hmul, hmax]
    omega
  refine ⟨cc.offsetSeconds * 1000000000 + ns, ?_, ?_⟩
  · rw [offsetInNs_eq, guard_pos ((safeToMulInt64_iff _).mpr hhigh), Option.bind_some, hns,
      Option.bind_some, guard_pos hsafe, Option.bind_some]
  · rw [Int64.toInt_add, hmul, bmod_eq ⟨by omega, by omega⟩]

theorem safe_of_offsetInNs (h : cc.offsetInNs = some offset) :
    safeToMulInt64 cc.offsetSeconds 1000000000 = true ∧ (cc.frequency ≠ 1000000000 →
      safeToMulInt64 cc.offsetCycles.toInt64 1000000000 = true) := by
  rw [offsetInNs_eq] at h
  obtain ⟨_, hseconds, h⟩ := Option.bind_eq_some_iff.mp h
  obtain ⟨ns, hcycles, -⟩ := Option.bind_eq_some_iff.mp h
  refine ⟨guard_eq_some hseconds, fun hfreq => ?_⟩
  rw [nsToAdd, if_neg hfreq] at hcycles
  split at hcycles
  · assumption
  · cases hcycles

/-! ## The conversion -/

theorem Fits.toInt_offset (h : cc.Fits nsFromOrigin) (hoffset : cc.offsetInNs = some offset) :
    offset.toInt = cc.exactOffset := by
  obtain ⟨hseconds, hcycles⟩ := safe_of_offsetInNs hoffset
  rw [safeToMulInt64_iff] at hseconds
  have hrest := h.2 hseconds
  have hfits : cc.frequency = 1000000000 ∨
      cc.offsetCycles.toNat < 9223372036 ∧ cc.frequency.toNat < 2 ^ 63 := by
    by_cases hfreq : cc.frequency = 1000000000
    · exact .inl hfreq
    · rw [if_neg hfreq] at hrest
      have hcast := CLib.toInt_toInt64 cc.offsetCycles
      rw [if_pos hrest.1] at hcast
      have hlt := (safeToMulInt64_iff _).mp (hcycles hfreq)
      have hlt' : cc.offsetCycles.toNat < 9223372036 := by omega
      exact .inr ⟨hlt', (hrest.2 hlt').1⟩
  obtain ⟨offset', hoffset', heq⟩ := exists_offsetInNs h.1 hseconds hfits
  rw [hoffset] at hoffset'
  cases hoffset'
  exact heq

theorem Fits.difference_lt (h : cc.Fits nsFromOrigin) (hoffset : cc.offsetInNs = some offset) :
    nsFromOrigin.toInt - cc.exactOffset < 2 ^ 63 := by
  obtain ⟨hseconds, hcycles⟩ := safe_of_offsetInNs hoffset
  have hrest := h.2 ((safeToMulInt64_iff _).mp hseconds)
  split at hrest
  · exact hrest
  · rename_i hfreq
    have hcast := CLib.toInt_toInt64 cc.offsetCycles
    rw [if_pos hrest.1] at hcast
    have hlt := (safeToMulInt64_iff _).mp (hcycles hfreq)
    exact (hrest.2 (by omega)).2

theorem Fits.noWrap (h : cc.Fits nsFromOrigin) : cc.NoWrap nsFromOrigin where
  seconds hseconds := by
    have hlow := h.1
    rw [safeToMulInt64_iff] at hseconds
    exact ⟨by omega, by omega⟩
  cyclesCast hseconds := by
    have hrest := h.2 ((safeToMulInt64_iff _).mp hseconds)
    split at hrest
    · rename_i hfreq
      have hlt := UInt64.lt_iff_toNat_lt.mp cc.offsetCycles_lt
      have hfreqNat : cc.frequency.toNat = 1000000000 := by rw [hfreq]; decide
      exact ⟨by omega, by omega⟩
    · exact ⟨by omega, by omega⟩
  cycles hseconds hfreq hcycles := by
    have hrest := h.2 ((safeToMulInt64_iff _).mp hseconds)
    rw [if_neg hfreq] at hrest
    have hcast := CLib.toInt_toInt64 cc.offsetCycles
    rw [if_pos hrest.1] at hcast
    rw [safeToMulInt64_iff] at hcycles
    have hfreq63 := (hrest.2 (by omega)).1
    exact ⟨⟨by omega, by omega⟩, by omega, by omega⟩
  sum hne := by
    obtain ⟨offset, hoffset⟩ := Option.ne_none_iff_exists'.mp hne
    rw [← h.toInt_offset hoffset]
    exact ⟨offset.le_toInt, offset.toInt_lt⟩
  difference offset hoffset hle := by
    have hlt := h.difference_lt hoffset
    rw [Int64.le_iff_toInt_le] at hle
    rw [h.toInt_offset hoffset] at hle ⊢
    exact ⟨by omega, hlt⟩

theorem NoWrap.fits (h : cc.NoWrap nsFromOrigin) : cc.Fits nsFromOrigin := by
  have hdifference (hcycles : cc.frequency = 1000000000 ∨
      cc.offsetCycles.toNat < 9223372036 ∧ cc.frequency.toNat < 2 ^ 63)
      (hlow : -9223372036 ≤ cc.offsetSeconds.toInt)
      (hhigh : cc.offsetSeconds.toInt < 9223372036) :
      nsFromOrigin.toInt - cc.exactOffset < 2 ^ 63 := by
    obtain ⟨offset, hoffset, heq⟩ := exists_offsetInNs hlow hhigh hcycles
    rw [← heq]
    by_cases hle : offset ≤ nsFromOrigin
    · exact (h.difference offset hoffset hle).2
    · rw [Int64.le_iff_toInt_le] at hle
      omega
  have hlow : -9223372036 ≤ cc.offsetSeconds.toInt := by
    by_contra hlt
    have hmul := (h.seconds ((safeToMulInt64_iff _).mpr (by omega))).1
    omega
  refine ⟨hlow, fun hhigh => ?_⟩
  have hseconds := (safeToMulInt64_iff _).mpr hhigh
  split
  · rename_i hfreq
    exact hdifference (.inl hfreq) hlow hhigh
  · rename_i hfreq
    have hcycles63 := (h.cyclesCast hseconds).2
    refine ⟨by omega, fun hcycles => ?_⟩
    have hcast := CLib.toInt_toInt64 cc.offsetCycles
    rw [if_pos (by omega)] at hcast
    have hfreq63 := (h.cycles hseconds hfreq ((safeToMulInt64_iff _).mpr (by omega))).2.2
    exact ⟨by omega, hdifference (.inr ⟨hcycles, by omega⟩) hlow hhigh⟩

/-- The function either fails or gives the exact value exactly when its operands fit. -/
theorem valueFromNsFromOrigin_exact_iff (cc : ClockClass) (nsFromOrigin : Int64) :
    (cc.NoWrap nsFromOrigin ∧ (∀ value, cc.valueFromNsFromOrigin nsFromOrigin = some value →
        (value.toNat : ℤ) = cc.exactValue nsFromOrigin) ↔ cc.Fits nsFromOrigin) ∧
      ∀ nsFromOrigin' value value', nsFromOrigin ≤ nsFromOrigin' →
        cc.valueFromNsFromOrigin nsFromOrigin = some value →
        cc.valueFromNsFromOrigin nsFromOrigin' = some value' → value ≤ value' := by
  refine ⟨⟨fun h => h.1.fits, fun h => ⟨h.noWrap, fun value hvalue => ?_⟩⟩,
    fun _ _ _ => valueFromNsFromOrigin_mono⟩
  obtain ⟨offset, hoffset, -, heq⟩ := toNat_of_valueFromNsFromOrigin hvalue
  rw [heq, h.toInt_offset hoffset, exactValue]

/-- The offset, in nanoseconds, is less than any signed 64-bit integer. -/
def earlyClockClass : ClockClass := ⟨1, -9223372037, 0, by decide⟩

theorem valueFromNsFromOrigin_early :
    earlyClockClass.valueFromNsFromOrigin 9223372036709551616 = some 0 ∧
      earlyClockClass.exactValue 9223372036709551616 = 18446744073 ∧
      ¬ InInt64 (earlyClockClass.offsetSeconds.toInt * 1000000000) := by
  decide +kernel

/-! ## Clock classes of 1 GHz -/

section
variable (hfreq : cc.frequency = 1000000000)
include hfreq

theorem exactOffset_eq :
    cc.exactOffset = cc.offsetSeconds.toInt * 1000000000 + cc.offsetCycles.toNat := by
  have hfreqNat : cc.frequency.toNat = 1000000000 := by rw [hfreq]; decide
  rw [exactOffset, hfreqNat, Nat.mul_div_cancel _ (by decide)]

theorem baseOffsetNs_exact {base : Int64} (h : cc.baseOffsetNs = some base) :
    (-9223372036 ≤ cc.offsetSeconds.toInt ∧ cc.offsetSeconds.toInt < 9223372036) ∧
      base.toInt = cc.exactOffset := by
  have hlt := UInt64.lt_iff_toNat_lt.mp cc.offsetCycles_lt
  have hfreqNat : cc.frequency.toNat = 1000000000 := by rw [hfreq]; decide
  have hcast := CLib.toInt_toInt64 cc.offsetCycles
  rw [if_pos (by omega)] at hcast
  have hmin : (Int64.minValue / 1000000000 - 1).toInt = -9223372037 := by decide
  have hmax : (Int64.maxValue / 1000000000 - 1).toInt = 9223372035 := by decide
  have hone : (1000000000 : Int64).toInt = 1000000000 := by decide
  rw [baseOffsetNs] at h
  split at h
  · cases h
  · rename_i hrange
    rw [Int64.le_iff_toInt_le, Int64.le_iff_toInt_le, hmin, hmax] at hrange
    refine ⟨by omega, ?_⟩
    have hmul : (cc.offsetSeconds * 1000000000).toInt = cc.offsetSeconds.toInt * 1000000000 := by
      rw [Int64.toInt_mul, hone, bmod_eq ⟨by omega, by omega⟩]
    rw [← Option.some.inj h, nsFromValue, if_pos hfreq, Int64.toInt_add, hmul, hcast,
      exactOffset_eq hfreq, bmod_eq ⟨by omega, by omega⟩]

theorem valueFromNsFromOrigin_eq_some (hoffset : cc.offsetInNs = some offset)
    (hle : offset ≤ nsFromOrigin) (hvalue : value.toNat < 2 ^ 63)
    (heq : nsFromOrigin.toInt - offset.toInt = value.toNat) :
    cc.valueFromNsFromOrigin nsFromOrigin = some value := by
  have hvalueInNs : (nsFromOrigin - offset).toUInt64 = value := by
    rw [← UInt64.toNat_inj, ← Int.natCast_inj, toNat_valueInNs hle, heq]
  have hone : (1000000000 : UInt64).toNat = 1000000000 := by decide
  have hmax : (0xffffffffffffffff : UInt64).toNat = 2 ^ 64 - 1 := by decide
  have hdiv : (value / 1000000000).toNat = value.toNat / 1000000000 := by
    rw [UInt64.toNat_div, hone]
  have hrem := toNat_sub_periods value
  have hperiods : value / 1000000000 ≤ 0xffffffffffffffff / 1000000000 := by
    rw [UInt64.le_iff_toNat_le, hdiv, UInt64.toNat_div, hone, hmax]
    omega
  have hsafePeriods : safeToMulUInt64 (value / 1000000000) 1000000000 = true :=
    safeToMulUInt64_of_lt (by rw [hone, hdiv]; omega)
  have hsafeRem : safeToMulUInt64 1000000000 (value - value / 1000000000 * 1000000000) = true :=
    safeToMulUInt64_of_lt (by rw [hone, hrem]; omega)
  have hsum : (1000000000 * (value - value / 1000000000 * 1000000000) / 1000000000).toNat +
      (value / 1000000000 * 1000000000).toNat < 2 ^ 64 := by
    have hremLt : 1000000000 * (value.toNat % 1000000000) < 2 ^ 64 := by omega
    have hperiodsLt : value.toNat / 1000000000 * 1000000000 < 2 ^ 64 := by omega
    rw [UInt64.toNat_div, UInt64.toNat_mul, UInt64.toNat_mul, hone, hrem, hdiv,
      Nat.mod_eq_of_lt hremLt, Nat.mod_eq_of_lt hperiodsLt, Nat.mul_div_cancel_left _ (by decide)]
    omega
  have hresult : 1000000000 * (value - value / 1000000000 * 1000000000) / 1000000000 +
      value / 1000000000 * 1000000000 = value := by
    rw [← UInt64.toNat_inj, toNat_periods_add_rem (lt_of_safeToMulUInt64 hsafePeriods)
      (lt_of_safeToMulUInt64 hsafeRem) hsum, hone, Nat.mul_div_cancel _ (by decide)]
  refine Option.bind_eq_some_iff.mpr ⟨offset, hoffset, Option.bind_eq_some_iff.mpr
    ⟨(), guard_pos hle, ?_⟩⟩
  rw [hvalueInNs, hfreq]
  exact Option.bind_eq_some_iff.mpr ⟨(), guard_pos hperiods, Option.bind_eq_some_iff.mpr
    ⟨(), guard_pos hsafePeriods, Option.bind_eq_some_iff.mpr ⟨(), guard_pos hsafeRem,
      Option.bind_eq_some_iff.mpr ⟨(), guard_pos (safeToAddUInt64_of_lt hsum),
        congrArg some hresult⟩⟩⟩⟩

theorem toInt_of_nsFromOrigin {ns : Int64} (h : cc.nsFromOrigin value = some ns) :
    (-9223372036 ≤ cc.offsetSeconds.toInt ∧ cc.offsetSeconds.toInt < 9223372036) ∧
      value.toNat < 2 ^ 63 - 1 ∧ ns.toInt = cc.exactOffset + value.toNat := by
  obtain ⟨base, hbase, h⟩ := Option.bind_eq_some_iff.mp h
  obtain ⟨hseconds, hexact⟩ := baseOffsetNs_exact hfreq hbase
  obtain ⟨_, hvalue, h⟩ := Option.bind_eq_some_iff.mp h
  replace hvalue := UInt64.lt_iff_toNat_lt.mp (guard_eq_some hvalue)
  rw [nsFromValue, if_pos hfreq] at hvalue h
  have hmax : Int64.maxValue.toUInt64.toNat = 2 ^ 63 - 1 := by decide
  rw [hmax] at hvalue
  refine ⟨hseconds, hvalue, ?_⟩
  have hcast := CLib.toInt_toInt64 value
  rw [if_pos (by omega)] at hcast
  have hbaseLow := base.le_toInt
  -- The sum is guarded when the base is positive.
  have hsum : base.toInt + value.toNat < 2 ^ 63 ∧ ns = base + value.toInt64 := by
    have hzero : (0 : Int64).toInt = 0 := by decide
    split at h
    · rename_i hpos
      obtain ⟨_, hguard, h⟩ := Option.bind_eq_some_iff.mp h
      replace hguard := Int64.le_iff_toInt_le.mp (guard_eq_some hguard)
      rw [Int64.lt_iff_toInt_lt, hzero] at hpos
      have hbaseHigh := base.toInt_lt
      rw [hcast, Int64.toInt_sub, Int64.toInt_maxValue, bmod_eq ⟨by omega, by omega⟩] at hguard
      exact ⟨by omega, (Option.some.inj h).symm⟩
    · rename_i hneg
      rw [Int64.lt_iff_toInt_lt, hzero] at hneg
      exact ⟨by omega, (Option.some.inj h).symm⟩
  rw [hsum.2, Int64.toInt_add, hcast, ← hexact, bmod_eq ⟨by omega, hsum.1⟩]

theorem time_valueFromNsFromOrigin (h : cc.valueFromNsFromOrigin nsFromOrigin = some value) {ns : ℤ}
    (hns : cc.time value = some ns) : ns = nsFromOrigin.toInt := by
  obtain ⟨ns', hns', rfl⟩ := Option.map_eq_some_iff.mp hns
  obtain ⟨⟨hlow, hhigh⟩, -, hexact⟩ := toInt_of_nsFromOrigin hfreq hns'
  obtain ⟨offset, hoffset, hoffsetInt⟩ := exists_offsetInNs hlow hhigh (.inl hfreq)
  obtain ⟨offset', hoffset', -, hvalue⟩ := toNat_of_valueFromNsFromOrigin h
  rw [hoffset] at hoffset'
  cases hoffset'
  have hfreqNat : cc.frequency.toNat = 1000000000 := by rw [hfreq]; decide
  rw [hfreqNat] at hvalue
  omega

/-- At 1 GHz, the conversion to nanoseconds is exact, and the other conversion undoes it. -/
theorem nsFromOrigin_exact (value : UInt64) :
    (∀ base ∈ cc.baseOffsetNs, InInt64 (cc.offsetSeconds.toInt * 1000000000) ∧
      base.toInt = cc.offsetSeconds.toInt * 1000000000 + cc.offsetCycles.toNat) ∧
    ∀ ns ∈ cc.nsFromOrigin value, InInt64 value.toNat ∧
      ns.toInt = cc.offsetSeconds.toInt * 1000000000 + cc.offsetCycles.toNat + value.toNat ∧
      cc.valueFromNsFromOrigin ns = some value := by
  rw [← exactOffset_eq hfreq]
  refine ⟨fun base hbase => ?_, fun ns hns => ?_⟩
  · obtain ⟨hrange, hexact⟩ := baseOffsetNs_exact hfreq hbase
    exact ⟨⟨by omega, by omega⟩, hexact⟩
  obtain ⟨⟨hlow, hhigh⟩, hvalue, hnsInt⟩ := toInt_of_nsFromOrigin hfreq hns
  obtain ⟨offset, hoffset, hoffsetInt⟩ := exists_offsetInNs hlow hhigh (.inl hfreq)
  refine ⟨⟨by omega, by omega⟩, hnsInt, ?_⟩
  refine valueFromNsFromOrigin_eq_some hfreq hoffset ?_ (by omega) (by omega)
  rw [Int64.le_iff_toInt_le]
  omega

end

/-- The offset is a second and a half before the origin. -/
def shiftedClockClass : ClockClass := ⟨1000000000, -2, 500000000, by decide⟩

theorem nsFromOrigin_exact_shifted :
    shiftedClockClass.baseOffsetNs = some (-1500000000) ∧
      shiftedClockClass.nsFromOrigin 1500000007 = some 7 ∧
      shiftedClockClass.valueFromNsFromOrigin 7 = some 1500000007 :=
  ⟨by decide, by decide, ((nsFromOrigin_exact rfl 1500000007).2 7 (by decide)).2.2⟩

end ClockClass

end Babeltrace.TraceIr
