import Mathlib
import Babeltrace.CLib
import Babeltrace.ItemSeqIter
import Babeltrace.MetadataFc

/-!
# Integer ranges of selectors

The parser stores the ranges of an optional or variant field class as pairs of unsigned 64-bit
integers (`ctf-2-fc-builder.cpp`), and casts them once it knows the key
(`resolve-fcs-with-int-sel.cpp`). The iterator compares them with the saved value of the key.
-/
namespace Babeltrace.Metadata
open ItemSeq Bitfield

/-- The JSON parser tries to scan an unsigned integer first. -/
inductive JsonInt
  | uInt (val : UInt64)
  | sInt (val : Int64)
  deriving DecidableEq

def JsonInt.val : JsonInt → ℤ
  | .uInt val => val.toNat
  | .sInt val => val.toInt

abbrev JsonRange := JsonInt × JsonInt

/-- `val` lies between the bounds of the range. -/
def JsonRange.Contains (r : JsonRange) (val : ℤ) : Prop := r.1.val ≤ val ∧ val ≤ r.2.val

instance (r : JsonRange) (val : ℤ) : Decidable (r.Contains val) :=
  inferInstanceAs (Decidable (_ ∧ _))

/-- With the cause of `Ctf2JsonIntRangeValReq::_validate()` -/
def throwLowerGtUpper (lower upper : ℤ) : Except Err Unit :=
  .error (.causes [toString lower ++ " is greater than " ++ toString upper ++ ".",
    "Invalid integer range."])

/-- `Ctf2JsonIntRangeValReq::_validate()` for two integers -/
def validateIntRange : JsonRange → Except Err Unit
  | (.uInt lower, .uInt upper) =>
    if upper < lower then throwLowerGtUpper lower.toNat upper.toNat else .ok ()
  | (.uInt lower, .sInt upper) =>
    if upper < 0 then throwLowerGtUpper lower.toNat upper.toInt
    else if upper.toUInt64 < lower then throwLowerGtUpper lower.toNat upper.toInt
    else .ok ()
  | (.sInt lower, .sInt upper) =>
    if upper < lower then throwLowerGtUpper lower.toInt upper.toInt else .ok ()
  | (.sInt lower, .uInt upper) =>
    if 0 ≤ lower then
      if upper < lower.toUInt64 then throwLowerGtUpper lower.toInt upper.toNat else .ok ()
    else .ok ()

/-- The order of `IntRange` -/
def rangeLe (r r' : ℤ × ℤ) : Prop := r.1 < r'.1 ∨ (r.1 = r'.1 ∧ r.2 ≤ r'.2)

instance : DecidableRel rangeLe := fun r r' =>
  inferInstanceAs (Decidable (r.1 < r'.1 ∨ (r.1 = r'.1 ∧ r.2 ≤ r'.2)))

/-- `IntRangeSet`: ordered ranges without duplicates -/
def intRangeSet (ranges : Ranges) : Ranges := ranges.dedup.insertionSort rangeLe

def castVal (isSigned : Bool) (v : ℤ) : ℤ := if isSigned then toSigned 64 (toU64 v) else toU64 v

/-- With `long long` or `unsigned long long`, from the values of the JSON integers -/
def intRangeSetFromJsonIntRangeSet (isSigned : Bool) (ranges : Ranges) : Ranges :=
  intRangeSet (ranges.map fun r => (castVal isSigned r.1, castVal isSigned r.2))

def sIntRangeSetFromUIntRangeSet (ranges : Ranges) : Ranges :=
  intRangeSet (ranges.map fun r => (castVal true r.1, castVal true r.2))

def resolveRanges (isSigned : Bool) (ranges : Ranges) : Ranges :=
  if isSigned then sIntRangeSetFromUIntRangeSet ranges else ranges

def selFieldRanges (isSigned : Bool) (jsonRanges : List JsonRange) : Ranges :=
  resolveRanges isSigned
    (intRangeSetFromJsonIntRangeSet false (jsonRanges.map fun r => (r.1.val, r.2.val)))

/-! ## Casts -/

theorem JsonInt.le_val (j : JsonInt) : -2 ^ 63 ≤ j.val := by
  cases j with
  | uInt val => simp only [JsonInt.val]; omega
  | sInt val => exact val.le_toInt

theorem JsonInt.val_lt (j : JsonInt) : j.val < 2 ^ 64 := by
  cases j with
  | uInt val =>
    have := val.toNat_lt
    simp only [JsonInt.val]
    omega
  | sInt val =>
    have := val.toInt_lt
    simp only [JsonInt.val]
    omega

@[simp]
theorem throwLowerGtUpper_ne_ok (lower upper : ℤ) : throwLowerGtUpper lower upper ≠ .ok () := by
  simp [throwLowerGtUpper]

theorem validateIntRange_eq_ok_iff (r : JsonRange) :
    validateIntRange r = .ok () ↔ r.1.val ≤ r.2.val := by
  obtain ⟨lower, upper⟩ := r
  cases lower with
  | uInt lower =>
    cases upper with
    | uInt upper => simp [validateIntRange, JsonInt.val, UInt64.lt_iff_toNat_lt]
    | sInt upper =>
      have hcast := CLib.toNat_toUInt64 upper
      have hlt := upper.toInt_lt
      have hneg : upper < 0 ↔ upper.toInt < 0 := Int64.lt_iff_toInt_lt
      by_cases h : upper.toInt < 0
      · simp only [validateIntRange, JsonInt.val, hneg, h, if_true, throwLowerGtUpper,
          reduceCtorEq, false_iff]
        omega
      · simp [validateIntRange, JsonInt.val, hneg, h, UInt64.lt_iff_toNat_lt]
        omega
  | sInt lower =>
    cases upper with
    | uInt upper =>
      have hcast := CLib.toNat_toUInt64 lower
      have hlt := lower.toInt_lt
      have hnonneg : 0 ≤ lower ↔ 0 ≤ lower.toInt := Int64.le_iff_toInt_le
      by_cases h : 0 ≤ lower.toInt
      · simp [validateIntRange, JsonInt.val, hnonneg, h, UInt64.lt_iff_toNat_lt]
        omega
      · simp only [validateIntRange, JsonInt.val, hnonneg, h, if_false, true_iff]
        omega
    | sInt upper => simp [validateIntRange, JsonInt.val, Int64.lt_iff_toInt_lt]

variable {v : ℤ} {r : JsonRange} {isSigned : Bool} {jsonRanges : List JsonRange} {len : ℕ}

theorem toU64_of_nonneg (h0 : 0 ≤ v) (hlt : v < 2 ^ 64) : (toU64 v : ℤ) = v := by
  unfold toU64
  omega

theorem toU64_of_neg (hneg : v < 0) (hle : -2 ^ 63 ≤ v) : (toU64 v : ℤ) = v + 2 ^ 64 := by
  unfold toU64
  omega

theorem toSigned_eq {v : ℕ} (hv : v < 2 ^ 64) :
    toSigned 64 v = if 2 ^ 63 ≤ v then (v : ℤ) - 2 ^ 64 else (v : ℤ) := by
  have hbit : v.testBit 63 = decide (2 ^ 63 ≤ v) := by
    rw [Nat.testBit_eq_decide_div_mod_eq]
    congr 1
    simp only [eq_iff_iff]
    omega
  unfold toSigned
  rw [show 64 - 1 = 63 from rfl, hbit]
  simp only [decide_eq_true_eq]

theorem toSigned_toU64 (hle : -2 ^ 63 ≤ v) (hlt : v < 2 ^ 64) :
    toSigned 64 (toU64 v) = if v < 2 ^ 63 then v else v - 2 ^ 64 := by
  have hv : toU64 v < 2 ^ 64 := by
    unfold toU64
    omega
  rw [toSigned_eq hv]
  by_cases hneg : v < 0
  · have h := toU64_of_neg hneg hle
    rw [if_pos (by omega), if_pos (by omega)]
    omega
  · have h := toU64_of_nonneg (by omega) hlt
    split <;> split <;> omega

theorem toU64_toU64 (v : ℤ) : toU64 (toU64 v : ℤ) = toU64 v := by
  unfold toU64
  omega

theorem mem_intRangeSet {ranges : Ranges} {r : ℤ × ℤ} : r ∈ intRangeSet ranges ↔ r ∈ ranges := by
  unfold intRangeSet
  rw [List.mem_insertionSort, List.mem_dedup]

theorem mem_selFieldRanges {r : ℤ × ℤ} :
    r ∈ selFieldRanges isSigned jsonRanges ↔
      ∃ j ∈ jsonRanges, (castVal isSigned j.1.val, castVal isSigned j.2.val) = r := by
  cases isSigned with
  | false =>
    simp only [selFieldRanges, resolveRanges, Bool.false_eq_true, if_false,
      intRangeSetFromJsonIntRangeSet, mem_intRangeSet, List.mem_map, exists_exists_and_eq_and]
  | true =>
    simp only [selFieldRanges, resolveRanges, if_true, sIntRangeSetFromUIntRangeSet,
      intRangeSetFromJsonIntRangeSet, mem_intRangeSet, List.mem_map, exists_exists_and_eq_and,
      castVal, Bool.false_eq_true, if_false, toU64_toU64]

theorem contains_selFieldRanges (isSigned : Bool) (jsonRanges : List JsonRange) (v : ℤ) :
    (selFieldRanges isSigned jsonRanges).contains v = true ↔
      ∃ j ∈ jsonRanges, castVal isSigned j.1.val ≤ v ∧ v ≤ castVal isSigned j.2.val := by
  simp only [Ranges.contains, List.any_eq_true, decide_eq_true_eq]
  constructor
  · rintro ⟨r, hr, hv⟩
    obtain ⟨j, hj, rfl⟩ := mem_selFieldRanges.mp hr
    exact ⟨j, hj, hv⟩
  · rintro ⟨j, hj, hv⟩
    exact ⟨_, mem_selFieldRanges.mpr ⟨j, hj, rfl⟩, hv⟩

/-! ## Meaning of the ranges -/

/-- Values of an integer key field of `len` bits -/
def IsKeyVal (isSigned : Bool) (len : ℕ) (v : ℤ) : Prop :=
  if isSigned then -2 ^ (len - 1) ≤ v ∧ v < 2 ^ (len - 1) else 0 ≤ v ∧ v < 2 ^ len

def JsonRange.Exact (isSigned : Bool) (len : ℕ) (r : JsonRange) : Prop :=
  ∀ v, IsKeyVal isSigned len v → ((selFieldRanges isSigned [r]).contains v = true ↔ r.Contains v)

def JsonRange.Kept (isSigned : Bool) (len : ℕ) (r : JsonRange) : Prop :=
  if isSigned then
    r.2.val < 2 ^ 63 ∨ (2 ^ (len - 1) ≤ r.1.val ∧ r.1.val < 2 ^ 63) ∨
      (2 ^ 63 ≤ r.1.val ∧ r.2.val < 2 ^ 64 - 2 ^ (len - 1))
  else
    0 ≤ r.1.val ∨ (r.2.val < 0 ∧ len < 64)

instance (isSigned : Bool) (len : ℕ) (r : JsonRange) : Decidable (r.Kept isSigned len) := by
  unfold JsonRange.Kept
  infer_instance

theorem pow_pred_le (hlen : len ≤ 64) : (2 : ℤ) ^ (len - 1) ≤ 2 ^ 63 :=
  pow_le_pow_right₀ (by norm_num) (by omega)

theorem castVal_of_isKeyVal (hlen : len ≤ 64) (hv : IsKeyVal isSigned len v) :
    castVal isSigned v = v := by
  cases isSigned with
  | false =>
    simp only [IsKeyVal, Bool.false_eq_true, if_false] at hv
    have hpow : (2 : ℤ) ^ len ≤ 2 ^ 64 := pow_le_pow_right₀ (by norm_num) hlen
    simp only [castVal, Bool.false_eq_true, if_false]
    exact toU64_of_nonneg hv.1 (by omega)
  | true =>
    simp only [IsKeyVal, if_true] at hv
    have hpow := pow_pred_le hlen
    simp only [castVal, if_true]
    rw [toSigned_toU64 (by omega) (by omega), if_pos (by omega)]

theorem savedKeyVal_saveKeyVal (hlen : len ≤ 64) (hv : IsKeyVal isSigned len v) (d : Dec)
    {indexes : List ℕ} {index : ℕ} (hindex : index ∈ indexes) :
    (saveKeyVal indexes v d).savedKeyVal isSigned index = v := by
  have hcast := castVal_of_isKeyVal hlen hv
  simp only [Dec.savedKeyVal, saveKeyVal, hindex, if_true]
  exact hcast

theorem contains_singleton (isSigned : Bool) (r : JsonRange) (v : ℤ) :
    (selFieldRanges isSigned [r]).contains v = true ↔
      castVal isSigned r.1.val ≤ v ∧ v ≤ castVal isSigned r.2.val := by
  simp only [contains_selFieldRanges, List.mem_singleton, exists_eq_left]

theorem uInt_exact_iff (hlen : len ≤ 64) (hr : r.1.val ≤ r.2.val) :
    r.Exact false len ↔ r.Kept false len := by
  have hlower := r.1.le_val
  have hupper := r.2.val_lt
  have hpos : (0 : ℤ) < 2 ^ len := by positivity
  simp only [JsonRange.Exact, JsonRange.Kept, IsKeyVal, contains_singleton, castVal,
    JsonRange.Contains, Bool.false_eq_true, if_false]
  by_cases hl : 0 ≤ r.1.val
  · rw [toU64_of_nonneg hl (by omega), toU64_of_nonneg (by omega) hupper]
    exact iff_of_true (fun _ _ => Iff.rfl) (.inl hl)
  · rw [toU64_of_neg (by omega) hlower]
    by_cases hu : 0 ≤ r.2.val
    · -- the stored range is inverted, whereas zero is between its JSON bounds
      rw [toU64_of_nonneg hu hupper]
      refine iff_of_false (fun h => ?_) (by omega)
      have := h 0 ⟨le_refl _, hpos⟩
      omega
    · rw [toU64_of_neg (by omega) (by omega)]
      constructor
      · intro h
        refine .inr ⟨by omega, lt_of_le_of_ne hlen ?_⟩
        rintro rfl
        have := h (r.1.val + 2 ^ 64) ⟨by omega, by omega⟩
        omega
      · rintro (h | ⟨-, hlt⟩) v ⟨hv0, hv⟩
        · omega
        · have hpow : (2 : ℤ) ^ len ≤ 2 ^ 63 := pow_le_pow_right₀ (by norm_num) (by omega)
          omega

theorem sInt_exact_iff (hlen : len ≤ 64) (hr : r.1.val ≤ r.2.val) :
    r.Exact true len ↔ r.Kept true len := by
  have hlower := r.1.le_val
  have hupper := r.2.val_lt
  have hpow := pow_pred_le hlen
  have hpos : (0 : ℤ) < 2 ^ (len - 1) := by positivity
  simp only [JsonRange.Exact, JsonRange.Kept, IsKeyVal, contains_singleton, castVal,
    JsonRange.Contains, if_true]
  rw [toSigned_toU64 hlower (by omega), toSigned_toU64 (by omega) hupper]
  generalize (2 : ℤ) ^ (len - 1) = p at hpow hpos ⊢
  by_cases hu : r.2.val < 2 ^ 63
  · rw [if_pos (by omega), if_pos hu]
    exact iff_of_true (fun _ _ => Iff.rfl) (.inl hu)
  · rw [if_neg hu]
    by_cases hl : r.1.val < 2 ^ 63
    · rw [if_pos hl]
      constructor
      · -- the greatest key value is within the JSON bounds unless the lower one excludes it
        intro h
        have := h (p - 1) ⟨by omega, by omega⟩
        omega
      · rintro h v ⟨hv, hv'⟩
        omega
    · rw [if_neg hl]
      constructor
      · intro h
        have := h (r.2.val - 2 ^ 64)
        omega
      · rintro h v ⟨hv, hv'⟩
        omega

theorem JsonRange.exact_iff (hlen : len ≤ 64) (hr : validateIntRange r = .ok ()) :
    r.Exact isSigned len ↔ r.Kept isSigned len := by
  rw [validateIntRange_eq_ok_iff] at hr
  cases isSigned with
  | false => exact uInt_exact_iff hlen hr
  | true => exact sInt_exact_iff hlen hr

/-- `v` lies between the bounds of one of the ranges. -/
def InRanges (jsonRanges : List JsonRange) (v : ℤ) : Prop := ∃ r ∈ jsonRanges, r.Contains v

theorem contains_iff_inRanges (hexact : ∀ r ∈ jsonRanges, r.Exact isSigned len)
    (hv : IsKeyVal isSigned len v) :
    (selFieldRanges isSigned jsonRanges).contains v = true ↔ InRanges jsonRanges v := by
  rw [contains_selFieldRanges]
  refine exists_congr fun r => and_congr_right fun hr => ?_
  rw [← contains_singleton]
  exact hexact r hr v hv

/-- `opts` has the JSON ranges of each option of a variant field class. -/
structure SelMeaning (isSigned : Bool) (len : ℕ) (opts : List (List JsonRange)) : Prop where
  range : ∀ jsonRanges ∈ opts, ∀ r ∈ jsonRanges, r.Exact isSigned len
  optional : ∀ jsonRanges ∈ opts, ∀ v, IsKeyVal isSigned len v →
    ∀ (d : Dec) (indexes : List ℕ) (index : ℕ), index ∈ indexes →
    (((OptionalSel.int isSigned (selFieldRanges isSigned jsonRanges)).eval
      (saveKeyVal indexes v d) index).2 = true ↔ InRanges jsonRanges v)
  variant : ∀ v, IsKeyVal isSigned len v →
    ∀ (d : Dec) (indexes : List ℕ) (index : ℕ), index ∈ indexes →
    ∀ i jsonRanges, opts[i]? = some jsonRanges →
    (findOptBySelVal (opts.map (selFieldRanges isSigned))
      ((saveKeyVal indexes v d).savedKeyVal isSigned index) = some i ↔ InRanges jsonRanges v)

def OptsDisjoint (isSigned : Bool) (len : ℕ) (opts : List (List JsonRange)) : Prop :=
  opts.Pairwise fun ranges ranges' =>
    ∀ v, IsKeyVal isSigned len v → InRanges ranges v → ¬InRanges ranges' v

theorem findOptBySelVal_eq_some_iff {ranges : List Ranges} {i : ℕ} :
    findOptBySelVal ranges v = some i ↔ ∃ h : i < ranges.length,
      ranges[i].contains v = true ∧ ∀ j (hji : j < i), ranges[j].contains v = false := by
  unfold findOptBySelVal
  rw [List.findIdx?_eq_some_iff_getElem]
  simp only [Bool.not_eq_true]

theorem findOptBySelVal_selFieldRanges {opts : List (List JsonRange)}
    (hexact : ∀ jsonRanges ∈ opts, ∀ r ∈ jsonRanges, r.Exact isSigned len)
    (hv : IsKeyVal isSigned len v) {i : ℕ} (hi : opts[i]? = some jsonRanges) :
    findOptBySelVal (opts.map (selFieldRanges isSigned)) v = some i ↔
      InRanges jsonRanges v ∧
        ∀ j < i, ∀ jsonRanges', opts[j]? = some jsonRanges' → ¬InRanges jsonRanges' v := by
  obtain ⟨hlen, rfl⟩ := List.getElem?_eq_some_iff.mp hi
  have hcontains : ∀ j (hj : j < opts.length),
      (selFieldRanges isSigned opts[j]).contains v = true ↔ InRanges opts[j] v := fun j hj =>
    contains_iff_inRanges (hexact _ (List.getElem_mem hj)) hv
  rw [findOptBySelVal_eq_some_iff]
  simp only [List.length_map, List.getElem_map, hlen, exists_true_left, hcontains i hlen]
  refine and_congr_right fun _ => forall₂_congr fun j hji => ?_
  have hj : j < opts.length := by omega
  simp only [List.getElem?_eq_getElem hj, Option.some.injEq, forall_eq', ← hcontains j hj,
    Bool.not_eq_true]

end Babeltrace.Metadata
