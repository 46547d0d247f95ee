import Mathlib

/-!
# Integer range sets

The integer range sets of the library (`integer-range-set.c`) are lists of ranges, possibly the same
one more than once. Their comparison decides that both sets contain the same ranges exactly when the
first one doesn't contain some range more than once (`compareRangeSets_iff`).
-/
namespace Babeltrace.RangeSets

/-- `bt_integer_range`: both bounds are seen as unsigned integers. -/
structure Range where
  lower : UInt64
  upper : UInt64
  deriving DecidableEq, Repr

/-- `addr` stands for the address of the object. -/
structure RangeSet where
  addr : ℕ
  ranges : List Range
  deriving DecidableEq, Repr

section

variable {α : Type} [LE α] [DecidableLE α] (u : α → UInt64)

/-- `u` tells how a bound is stored. -/
def addRange (rangeSet : RangeSet) (range : α × α) : Option RangeSet :=
  if range.1 ≤ range.2 then
    some { rangeSet with ranges := rangeSet.ranges ++ [⟨u range.1, u range.2⟩] }
  else none

def build (addr : ℕ) (ranges : List (α × α)) : Option RangeSet :=
  ranges.foldlM (addRange u) ⟨addr, []⟩

end

/-- `bt_integer_range_set_unsigned_add_range()`, from a new range set -/
def buildUnsigned : ℕ → List (UInt64 × UInt64) → Option RangeSet := build id

/-- `bt_integer_range_set_signed_add_range()`, from a new range set -/
def buildSigned : ℕ → List (Int64 × Int64) → Option RangeSet := build Int64.toUInt64

def compareRanges (rangeA rangeB : Range) : Bool :=
  rangeA.lower == rangeB.lower && rangeA.upper == rangeB.upper

/-- The inner loop of `compare_range_sets()` -/
def hasRange (rangeA : Range) : List Range → Bool
  | [] => false
  | rangeB :: rangesB => if compareRanges rangeA rangeB then true else hasRange rangeA rangesB

/-- The outer loop of `compare_range_sets()` -/
def hasRanges (rangesB : List Range) : List Range → Bool
  | [] => true
  | rangeA :: rangesA => if hasRange rangeA rangesB then hasRanges rangesB rangesA else false

def compareRangeSets (rangeSetA rangeSetB : RangeSet) : Bool :=
  if rangeSetA.addr = rangeSetB.addr then true
  else if rangeSetA.ranges.length ≠ rangeSetB.ranges.length then false
  else hasRanges rangeSetB.ranges rangeSetA.ranges

/-! ## What the comparison decides -/

theorem compareRanges_iff {rangeA rangeB : Range} :
    compareRanges rangeA rangeB = true ↔ rangeA = rangeB := by
  cases rangeA
  cases rangeB
  simp [compareRanges]

theorem hasRange_iff {rangeA : Range} {rangesB : List Range} :
    hasRange rangeA rangesB = true ↔ rangeA ∈ rangesB := by
  induction rangesB with
  | nil => simp [hasRange]
  | cons rangeB rangesB ih =>
    rw [hasRange, List.mem_cons, ← compareRanges_iff]
    split
    · simp [*]
    · simp [*]

theorem hasRanges_iff {rangesA rangesB : List Range} :
    hasRanges rangesB rangesA = true ↔ rangesA ⊆ rangesB := by
  induction rangesA with
  | nil => simp [hasRanges]
  | cons rangeA rangesA ih =>
    rw [hasRanges, List.cons_subset, ← hasRange_iff]
    split
    · simp [*]
    · simp [*]

def store {α : Type} (u : α → UInt64) (range : α × α) : Range := ⟨u range.1, u range.2⟩

theorem store_injective {α : Type} {u : α → UInt64} (hu : Function.Injective u) :
    Function.Injective (store u) := by
  rintro ⟨lower, upper⟩ ⟨lower', upper'⟩ h
  obtain ⟨hlower, hupper⟩ := Range.mk.inj h
  exact Prod.ext (hu hlower) (hu hupper)

/-- The same object has the same ranges. -/
def Decides {α : Type} (build : ℕ → List (α × α) → Option RangeSet) (addr : ℕ)
    (ranges : List (α × α)) (rangeSet : RangeSet) : Prop :=
  ∀ addr' ranges' rangeSet', (addr = addr' → ranges = ranges') →
    build addr' ranges' = some rangeSet' →
      (compareRangeSets rangeSet rangeSet' = true ↔ ranges.Perm ranges')

section

variable {α : Type} [LE α] [DecidableLE α] {u : α → UInt64} {addr addr' : ℕ}
  {ranges ranges' : List (α × α)} {rangeSet rangeSet' : RangeSet}

theorem build_eq_some :
    build u addr ranges = some rangeSet ↔
      (∀ range ∈ ranges, range.1 ≤ range.2) ∧ rangeSet = ⟨addr, ranges.map (store u)⟩ := by
  have hfold : ∀ stored : List Range,
      ranges.foldlM (addRange u) ⟨addr, stored⟩ = some rangeSet ↔
        (∀ range ∈ ranges, range.1 ≤ range.2) ∧
          rangeSet = ⟨addr, stored ++ ranges.map (store u)⟩ := by
    induction ranges with
    | nil => simp [eq_comm]
    | cons range ranges ih =>
      intro stored
      rw [List.foldlM_cons, addRange]
      split
      · rename_i hle
        simp only [Option.bind_eq_bind, Option.bind_some, ih, List.forall_mem_cons, hle, true_and,
          List.append_assoc, List.map_cons, List.singleton_append]
        rfl
      · rename_i hle
        simp [hle]
  exact hfold []

theorem compareRangeSets_build (hu : Function.Injective u)
    (hset : build u addr ranges = some rangeSet) (hset' : build u addr' ranges' = some rangeSet')
    (hsame : addr = addr' → ranges = ranges') :
    compareRangeSets rangeSet rangeSet' = true ↔
      ranges.length = ranges'.length ∧ ranges ⊆ ranges' := by
  obtain ⟨-, rfl⟩ := build_eq_some.mp hset
  obtain ⟨-, rfl⟩ := build_eq_some.mp hset'
  have hsubset : ranges.map (store u) ⊆ ranges'.map (store u) ↔ ranges ⊆ ranges' := by
    refine ⟨fun h range hrange => ?_, List.map_subset _⟩
    obtain ⟨range', hrange', heq⟩ := List.mem_map.mp (h (List.mem_map_of_mem hrange))
    rwa [← store_injective hu heq]
  rw [compareRangeSets]
  split
  · rename_i haddr
    rw [hsame haddr]
    simp
  · split
    · rename_i hlength
      simp only [List.length_map] at hlength
      simp [hlength]
    · rename_i hlength
      simp only [List.length_map, not_not] at hlength
      rw [hasRanges_iff, hsubset]
      simp [hlength]

theorem exists_twice_of_not_nodup {β : Type} {l : List β} (h : ¬l.Nodup) :
    ∃ before b after, l = before ++ b :: after ∧ b ∈ after := by
  induction l with
  | nil => exact absurd List.nodup_nil h
  | cons a l ih =>
    by_cases ha : a ∈ l
    · exact ⟨[], a, l, rfl, ha⟩
    · obtain ⟨before, b, after, rfl, hb⟩ := ih fun hl => h (List.nodup_cons.mpr ⟨ha, hl⟩)
      exact ⟨a :: before, b, after, rfl, hb⟩

theorem compareRangeSets_iff (hu : Function.Injective u) (hother : ∀ a : α, ∃ b, b ≠ a ∧ b ≤ b)
    (hset : build u addr ranges = some rangeSet) :
    Decides (build u) addr ranges rangeSet ↔ ranges.Nodup := by
  constructor
  · intro h
    by_contra hdup
    -- another range instead of the one which is there twice
    obtain ⟨before, range, after, rfl, hmem⟩ := exists_twice_of_not_nodup hdup
    obtain ⟨b, hne, hle⟩ := hother range.1
    have hne' : (b, b) ≠ range := fun heq => hne (congrArg Prod.fst heq)
    have hvalid := (build_eq_some.mp hset).1
    have hbuild : build u (addr + 1) (before ++ (b, b) :: after) =
        some ⟨addr + 1, (before ++ (b, b) :: after).map (store u)⟩ := by
      refine build_eq_some.mpr ⟨fun range' hrange' => ?_, rfl⟩
      rcases List.mem_append.mp hrange' with hrange' | hrange'
      · exact hvalid range' (List.mem_append_left _ hrange')
      · rcases List.mem_cons.mp hrange' with rfl | hrange'
        · exact hle
        · exact hvalid range' (by simp [hrange'])
    have haddr : addr = addr + 1 →
        before ++ range :: after = before ++ (b, b) :: after := fun heq => by omega
    have hperm := (h _ _ _ haddr hbuild).mp <| by
      rw [compareRangeSets_build hu hset hbuild haddr]
      refine ⟨by simp, fun range' hrange' => ?_⟩
      rcases List.mem_append.mp hrange' with hrange' | hrange'
      · exact List.mem_append_left _ hrange'
      · rcases List.mem_cons.mp hrange' with rfl | hrange'
        · simp [hmem]
        · simp [hrange']
    have hcons : (range :: after).Perm ((b, b) :: after) :=
      (List.perm_append_left_iff before).mp hperm
    classical
    have hcount := hcons.count_eq range
    rw [List.count_cons_self, List.count_cons_of_ne hne'] at hcount
    omega
  · intro hnodup addr' ranges' rangeSet' hsame hset'
    rw [compareRangeSets_build hu hset hset' hsame]
    constructor
    · rintro ⟨hlength, hsubset⟩
      exact (List.subperm_of_subset hnodup hsubset).perm_of_length_le (Nat.le_of_eq hlength.symm)
    · intro hperm
      exact ⟨hperm.length_eq, hperm.subset⟩

end

/-! ## Unsigned and signed range sets -/

/-- The equality functions decide that two range sets contain the same ranges exactly for those to
which no range was added more than once. -/
theorem isEqual_iff_nodup (addr : ℕ) (rangeSet : RangeSet) :
    (∀ ranges, buildUnsigned addr ranges = some rangeSet →
      (Decides buildUnsigned addr ranges rangeSet ↔ ranges.Nodup)) ∧
    ∀ ranges, buildSigned addr ranges = some rangeSet →
      (Decides buildSigned addr ranges rangeSet ↔ ranges.Nodup) := by
  refine ⟨fun ranges hset => ?_, fun ranges hset => ?_⟩
  · refine compareRangeSets_iff (fun _ _ h => h) (fun a => ?_) hset
    by_cases ha : a = 0
    · exact ⟨1, by simp [ha], by decide⟩
    · exact ⟨0, Ne.symm ha, by decide⟩
  · refine compareRangeSets_iff (fun a b h => ?_) (fun a => ?_) hset
    · simpa using congrArg UInt64.toInt64 h
    · by_cases ha : a = 0
      · exact ⟨1, by simp [ha], by decide⟩
      · exact ⟨0, Ne.symm ha, by decide⟩

theorem isEqual_iff_nodup_signed :
    buildSigned 0 [(-1, 2), (5, 5)] = some ⟨0, [⟨-1, 2⟩, ⟨5, 5⟩]⟩ ∧
    buildSigned 1 [(5, 5), (-1, 2)] = some ⟨1, [⟨5, 5⟩, ⟨-1, 2⟩]⟩ ∧
    compareRangeSets ⟨0, [⟨-1, 2⟩, ⟨5, 5⟩]⟩ ⟨1, [⟨5, 5⟩, ⟨-1, 2⟩]⟩ = true := by
  have hset : buildSigned 0 [(-1, 2), (5, 5)] = some ⟨0, [⟨-1, 2⟩, ⟨5, 5⟩]⟩ := by decide
  have hset' : buildSigned 1 [(5, 5), (-1, 2)] = some ⟨1, [⟨5, 5⟩, ⟨-1, 2⟩]⟩ := by decide
  refine ⟨hset, hset', ?_⟩
  have hnodup : ([(-1, 2), (5, 5)] : List (Int64 × Int64)).Nodup := by decide
  exact (((isEqual_iff_nodup _ _).2 _ hset).mpr hnodup _ _ _ (by decide) hset').mpr (by decide)

/-- A range which is twice in the first range set: the comparison isn't symmetric. -/
theorem isEqual_not_symm :
    ∃ rangeSet rangeSet', buildUnsigned 0 [(0, 0), (0, 0)] = some rangeSet ∧
      buildUnsigned 1 [(0, 0), (1, 1)] = some rangeSet' ∧
      ¬[((0 : UInt64), (0 : UInt64)), (0, 0)].Perm [(0, 0), (1, 1)] ∧
      compareRangeSets rangeSet rangeSet' = true ∧ compareRangeSets rangeSet' rangeSet = false :=
  ⟨⟨0, [⟨0, 0⟩, ⟨0, 0⟩]⟩, ⟨1, [⟨0, 0⟩, ⟨1, 1⟩]⟩, by decide, by decide, by decide, by decide, by decide⟩

end Babeltrace.RangeSets
