import Babeltrace.FieldLocs
import Babeltrace.IntRanges

/-!
# Library field classes

The CTF source translates its classes to library ones (`metadata-stream-parser.cpp`), of which the
functions have preconditions.
-/
namespace Babeltrace.Metadata
open ItemSeq

/-! ## Library field classes -/

inductive LibSel
  | none
  | bool (selFieldLoc : FieldLoc)
  | int (isSigned : Bool) (selFieldLoc : FieldLoc) (ranges : Ranges)

inductive LibFc
  | bool
  | bitArray (len : ℕ) (flags : List (String × Ranges))
  | singlePrecisionReal
  | doublePrecisionReal
  | int (isSigned : Bool) (len : ℕ)
  | enum (isSigned : Bool) (len : ℕ) (mappings : List (String × Ranges))
  | str
  | staticBlob (len : ℕ)
  | dynBlob (lenFieldLoc : Option FieldLoc)
  | staticArray (len : ℕ) (elemFc : LibFc)
  | dynArray (lenFieldLoc : Option FieldLoc) (elemFc : LibFc)
  | struct (members : List (String × LibFc))
  | option (sel : LibSel) (fc : LibFc)
  | variantWithoutSel (opts : List LibFc)
  | variantWithIntSel (isSigned : Bool) (selFc : LibFc) (opts : List (Ranges × LibFc))
  | variantWithIntSelLoc (isSigned : Bool) (selFieldLoc : FieldLoc) (opts : List (Ranges × LibFc))

/-- `bt_integer_range_set_unsigned_add_range()` or `bt_integer_range_set_signed_add_range()` -/
def addRange (ranges : Ranges) (r : ℤ × ℤ) : Except Err Ranges :=
  if r.1 ≤ r.2 then .ok (ranges ++ [r]) else .error (.abort "lower-lteq-upper")

def libIntRangeSetFromIntRangeSet (ranges : Ranges) : Except Err Ranges :=
  ranges.foldlM addRange []

def rangesOverlap (r r' : ℤ × ℤ) : Prop := r.1 ≤ r'.2 ∧ r'.1 ≤ r.2

instance (r r' : ℤ × ℤ) : Decidable (rangesOverlap r r') := inferInstanceAs (Decidable (_ ∧ _))

def hasOverlaps (ranges : Ranges) : Bool :=
  ranges.zipIdx.any fun (r, i) => ranges.zipIdx.any fun (r', j) =>
    i ≠ j ∧ rangesOverlap r r'

/-- The range set isn't empty, as the JSON text has at least one range. -/
def appendOption (opts : List (Ranges × LibFc)) (ranges : Ranges) (fc : LibFc) :
    Except Err (List (Ranges × LibFc)) := do
  let full ← (opts.flatMap Prod.fst ++ ranges).foldlM addRange []
  if hasOverlaps full then .error (.abort "ranges-do-not-overlap")
  else pure (opts ++ [(ranges, fc)])

/-! ## Translation of field classes -/

def libFieldLocFromFieldLoc (loc : FieldLoc) : Option FieldLoc :=
  match loc.origin with
  | some .commonEventRecordCtx | some .specEventRecordCtx | some .eventRecordPayload => some loc
  | _ => none

/-- `_setLibEnumFcMappings()`, or the flags of a bit map field class -/
def libMappings : List (String × Ranges) → Except Err (List (String × Ranges))
  | [] => .ok []
  | (name, ranges) :: mappings => do
    let ranges ← libIntRangeSetFromIntRangeSet ranges
    pure ((name, ranges) :: (← libMappings mappings))

/-- `_setLibIntFc()`, `_setLibUEnumFc()` and `_setLibSEnumFc()` -/
def libIntFc (isSigned : Bool) (len : ℕ) (mappings : List (String × Ranges)) :
    Except Err LibFc :=
  if mappings = [] then .ok (.int isSigned len)
  else do pure (.enum isSigned len (← libMappings mappings))

/-! ## Preconditions on integer ranges -/

theorem foldlM_addRange (ranges acc : Ranges) :
    ranges.foldlM addRange acc =
      if ∀ r ∈ ranges, r.1 ≤ r.2 then .ok (acc ++ ranges)
      else .error (.abort "lower-lteq-upper") := by
  induction ranges generalizing acc with
  | nil => simp [pure, Except.pure]
  | cons r ranges ih =>
    by_cases hr : r.1 ≤ r.2
    · have hadd : addRange acc r = .ok (acc ++ [r]) := if_pos hr
      rw [List.foldlM_cons, hadd]
      change ranges.foldlM addRange (acc ++ [r]) = _
      rw [ih]
      simp only [List.forall_mem_cons, hr, true_and, List.append_assoc, List.singleton_append]
    · have hadd : addRange acc r = .error (.abort "lower-lteq-upper") := if_neg hr
      rw [List.foldlM_cons, hadd, if_neg (fun h => hr (h r List.mem_cons_self))]
      rfl

theorem libIntRangeSetFromIntRangeSet_decides (ranges : Ranges) :
    Decides (∀ r ∈ ranges, r.1 ≤ r.2) (· = ranges) (libIntRangeSetFromIntRangeSet ranges) := by
  unfold libIntRangeSetFromIntRangeSet
  rw [foldlM_addRange]
  split
  next h => exact .inl ⟨h, ranges, by rw [List.nil_append], rfl⟩
  next h => exact .inr ⟨h, _, rfl⟩

theorem rangesOverlap_comm {r r' : ℤ × ℤ} (h : rangesOverlap r r') : rangesOverlap r' r :=
  ⟨h.2, h.1⟩

theorem hasOverlaps_eq_false_iff (ranges : Ranges) :
    hasOverlaps ranges = false ↔ ranges.Pairwise fun r r' => ¬rangesOverlap r r' := by
  simp only [hasOverlaps, List.any_eq_false, Prod.forall, List.mem_zipIdx_iff_getElem?,
    List.getElem?_eq_some_iff, Bool.not_eq_true, List.pairwise_iff_getElem, decide_eq_true_eq,
    forall_exists_index]
  constructor
  · intro h i j hi hj hij hover
    exact h _ _ i hi rfl _ _ j hj rfl ⟨by omega, hover⟩
  · rintro h _ _ i hi hri _ _ j hj hrj ⟨hij, hover⟩
    rw [← hri, ← hrj] at hover
    rcases Nat.lt_or_gt_of_ne hij with hlt | hgt
    · exact h i j hi hj hlt hover
    · exact h j i hj hi hgt (rangesOverlap_comm hover)

def RangesOk (ranges : Ranges) : Prop :=
  (∀ r ∈ ranges, r.1 ≤ r.2) ∧ ranges.Pairwise fun r r' => ¬rangesOverlap r r'

theorem appendOption_decides {opts : List (Ranges × LibFc)} {ranges : Ranges} (fc : LibFc)
    (hopts : ∀ r ∈ opts.flatMap Prod.fst, r.1 ≤ r.2) (hranges : ∀ r ∈ ranges, r.1 ≤ r.2) :
    Decides (RangesOk (opts.flatMap Prod.fst ++ ranges)) (· = opts ++ [(ranges, fc)])
      (appendOption opts ranges fc) := by
  have hle : ∀ r ∈ opts.flatMap Prod.fst ++ ranges, r.1 ≤ r.2 :=
    List.forall_mem_append.mpr ⟨hopts, hranges⟩
  unfold appendOption
  rw [foldlM_addRange, if_pos hle]
  change Decides _ _ (if hasOverlaps (opts.flatMap Prod.fst ++ ranges) = true then _ else _)
  cases h : hasOverlaps (opts.flatMap Prod.fst ++ ranges) with
  | false => exact .inl ⟨⟨hle, (hasOverlaps_eq_false_iff _).mp h⟩, _, rfl, rfl⟩
  | true =>
    refine .inr ⟨fun hok => ?_, _, rfl⟩
    have := (hasOverlaps_eq_false_iff _).mpr hok.2
    exact absurd (h.symm.trans this) (by decide)

theorem RangesOk.left {ranges ranges' : Ranges} (h : RangesOk (ranges ++ ranges')) :
    RangesOk ranges :=
  ⟨fun r hr => h.1 r (List.mem_append_left _ hr), (List.pairwise_append.mp h.2).1⟩

theorem libMappings_decides {mappings : List (String × Ranges)}
    (h : ∀ mapping ∈ mappings, ∀ r ∈ mapping.2, r.1 ≤ r.2) :
    Decides True (fun _ => True) (libMappings mappings) := by
  induction mappings with
  | nil => exact .pure trivial
  | cons mapping mappings ih =>
    obtain ⟨hr, hrs⟩ := List.forall_mem_cons.mp h
    have hset := (libIntRangeSetFromIntRangeSet_decides mapping.2).congr (iff_true_intro hr)
    exact (hset.bind fun _ _ _ => (ih hrs).map fun _ _ => trivial).congr and_self_iff

theorem libIntFc_decides {isSigned : Bool} {len : ℕ} {mappings : List (String × Ranges)}
    (h : ∀ mapping ∈ mappings, ∀ r ∈ mapping.2, r.1 ≤ r.2) :
    Decides True (fun _ => True) (libIntFc isSigned len mappings) := by
  unfold libIntFc
  split
  · exact .pure trivial
  · exact (libMappings_decides h).map fun _ _ => trivial

end Babeltrace.Metadata
