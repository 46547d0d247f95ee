import Mathlib
import Babeltrace.ItemSeqData

/-!
# Null codepoint finder

`NullCpFinder::findNullCp()` keeps the incomplete code unit from one buffer of a string to the next.
-/
namespace Babeltrace.ItemSeq

/-- The position is from the beginning of the first chunk. -/
def findNullCpInChunks (cu : CodeUnit) : List UInt8 → List (List UInt8) → Option ℕ
  | _, [] => none
  | part, chunk :: chunks =>
    (findNullCp cu part chunk).1.or
      ((findNullCpInChunks cu (findNullCp cu part chunk).2 chunks).map (chunk.length + ·))

/-- A null code unit begins at `pos`, which is aligned. -/
def NullCodeUnitAt (cu : CodeUnit) (bytes : List UInt8) (pos : ℕ) : Prop :=
  cu.len ∣ pos ∧ (bytes.drop pos).take cu.len = List.replicate cu.len 0

/-- `pos` is just after the first null code unit. -/
def IsFirstNullCp (cu : CodeUnit) (bytes : List UInt8) (pos : ℕ) : Prop :=
  ∃ start, pos = start + cu.len ∧ NullCodeUnitAt cu bytes start ∧
    ∀ start' < start, ¬NullCodeUnitAt cu bytes start'

theorem CodeUnit.len_pos (cu : CodeUnit) : 0 < cu.len := by
  cases cu <;> decide

/-! ## Chunks -/

theorem findNullCp_append (cu : CodeUnit) (part bytes bytes' : List UInt8) :
    (findNullCp cu part (bytes ++ bytes')).1 = (findNullCp cu part bytes).1.or
      ((findNullCp cu (findNullCp cu part bytes).2 bytes').1.map (bytes.length + ·)) := by
  induction bytes generalizing part with
  | nil => simp [findNullCp]
  | cons b bytes ih =>
    have hlength : ∀ n : ℕ, bytes.length + n + 1 = bytes.length + 1 + n := fun n => by omega
    simp only [List.cons_append, findNullCp, List.length_cons]
    split
    · split
      · simp
      · simp [ih, Option.map_or, Option.map_map, Function.comp_def, hlength]
    · simp [ih, Option.map_or, Option.map_map, Function.comp_def, hlength]

theorem findNullCpInChunks_eq_flatten (cu : CodeUnit) (part : List UInt8)
    (chunks : List (List UInt8)) :
    findNullCpInChunks cu part chunks = (findNullCp cu part chunks.flatten).1 := by
  induction chunks generalizing part with
  | nil => rfl
  | cons chunk chunks ih =>
    rw [findNullCpInChunks, ih, List.flatten_cons, findNullCp_append]

/-! ## First null code unit -/

variable {bytes unit : List UInt8} {pos : ℕ}

section

variable {cu : CodeUnit}

theorem NullCodeUnitAt.add_len_le (h : NullCodeUnitAt cu bytes pos) :
    pos + cu.len ≤ bytes.length := by
  have hlength := congrArg List.length h.2
  rw [List.length_take, List.length_drop, List.length_replicate] at hlength
  have := cu.len_pos
  omega

theorem nullCodeUnitAt_zero (hunit : unit.length = cu.len) (bytes : List UInt8) :
    NullCodeUnitAt cu (unit ++ bytes) 0 ↔ ∀ b ∈ unit, b = 0 := by
  rw [NullCodeUnitAt, List.drop_zero, List.take_left' hunit, ← hunit, List.eq_replicate_iff]
  simp

theorem nullCodeUnitAt_add (hunit : unit.length = cu.len) (bytes : List UInt8) (pos : ℕ) :
    NullCodeUnitAt cu (unit ++ bytes) (cu.len + pos) ↔ NullCodeUnitAt cu bytes pos := by
  rw [NullCodeUnitAt, NullCodeUnitAt, Nat.dvd_add_right (Nat.dvd_refl cu.len), ← List.drop_drop,
    List.drop_left' hunit]

theorem isFirstNullCp_add (hunit : unit.length = cu.len) (bytes : List UInt8)
    (hne : ¬∀ b ∈ unit, b = 0) (pos : ℕ) :
    IsFirstNullCp cu (unit ++ bytes) (cu.len + pos) ↔ IsFirstNullCp cu bytes pos := by
  have hzero : ¬NullCodeUnitAt cu (unit ++ bytes) 0 := (nullCodeUnitAt_zero hunit bytes).not.mpr hne
  -- a null code unit doesn't begin within the first one
  have hfrom : ∀ {start}, NullCodeUnitAt cu (unit ++ bytes) start →
      ∃ start', start = cu.len + start' := by
    intro start hstart
    obtain ⟨k, rfl⟩ := hstart.1
    cases k with
    | zero => exact absurd hstart hzero
    | succ k => exact ⟨cu.len * k, by rw [Nat.mul_succ, Nat.add_comm]⟩
  constructor
  · rintro ⟨start, hpos, hstart, hfirst⟩
    obtain ⟨start, rfl⟩ := hfrom hstart
    refine ⟨start, by omega, (nullCodeUnitAt_add hunit bytes start).mp hstart, ?_⟩
    intro start' hlt hstart'
    exact hfirst (cu.len + start') (by omega) ((nullCodeUnitAt_add hunit bytes start').mpr hstart')
  · rintro ⟨start, rfl, hstart, hfirst⟩
    refine ⟨cu.len + start, by omega, (nullCodeUnitAt_add hunit bytes start).mpr hstart, ?_⟩
    intro start' hlt hstart'
    obtain ⟨start', rfl⟩ := hfrom hstart'
    exact hfirst start' (by omega) ((nullCodeUnitAt_add hunit bytes start').mp hstart')

theorem IsFirstNullCp.len_le (h : IsFirstNullCp cu bytes pos) :
    cu.len ≤ pos := by
  obtain ⟨start, rfl, -⟩ := h
  exact Nat.le_add_left _ _

theorem isFirstNullCp_of_zero (h : NullCodeUnitAt cu bytes 0) :
    IsFirstNullCp cu bytes pos ↔ pos = cu.len := by
  constructor
  · rintro ⟨start, rfl, -, hfirst⟩
    have : start = 0 := Nat.eq_zero_of_not_pos fun hpos => hfirst 0 hpos h
    rw [this, Nat.zero_add]
  · rintro rfl
    exact ⟨0, (Nat.zero_add _).symm, h, fun _ hlt => absurd hlt (Nat.not_lt_zero _)⟩

theorem map_succ_eq_some_iff {o : Option ℕ} {P : ℕ → Prop} (h : ∀ n, o = some n ↔ P (n + 1))
    (hzero : ¬P 0) (n : ℕ) : o.map (· + 1) = some n ↔ P n := by
  cases n with
  | zero => simp [hzero]
  | succ n => simp [← h]

theorem findNullCp_eq_some_iff (part bytes : List UInt8) (hpart : part.length < cu.len) (n : ℕ) :
    (findNullCp cu part bytes).1 = some n ↔ IsFirstNullCp cu (part ++ bytes) (part.length + n) := by
  induction bytes generalizing part n with
  | nil =>
    simp only [findNullCp, List.append_nil, reduceCtorEq, false_iff]
    rintro ⟨start, -, hstart, -⟩
    have := hstart.add_len_le
    omega
  | cons b bytes ih =>
    have hlength : (part ++ [b]).length = part.length + 1 := by simp
    have hnil : ([] : List UInt8).length < cu.len := cu.len_pos
    have hzero : ¬IsFirstNullCp cu (part ++ b :: bytes) (part.length + 0) := fun h => by
      have := h.len_le
      omega
    have happend : part ++ b :: bytes = part ++ [b] ++ bytes := by simp
    simp only [findNullCp]
    split_ifs with hcomplete hnull
    · -- a null code unit ends with `b`
      have hfirst : NullCodeUnitAt cu (part ++ b :: bytes) 0 := by
        rw [happend, nullCodeUnitAt_zero hcomplete]
        simpa only [List.all_eq_true, decide_eq_true_eq] using hnull
      rw [isFirstNullCp_of_zero hfirst, ← hcomplete, hlength, Option.some_inj]
      omega
    · -- another code unit ends with `b`
      refine map_succ_eq_some_iff (P := fun n => IsFirstNullCp cu (part ++ b :: bytes)
        (part.length + n)) (fun n => ?_) hzero n
      have hne : ¬∀ b' ∈ part ++ [b], b' = 0 := by simpa only [List.all_eq_true, decide_eq_true_eq] using hnull
      rw [ih [] hnil, happend, ← Nat.add_assoc, Nat.add_right_comm, ← hlength, hcomplete,
        isFirstNullCp_add hcomplete bytes hne, List.nil_append, List.length_nil, Nat.zero_add]
    · refine map_succ_eq_some_iff (P := fun n => IsFirstNullCp cu (part ++ b :: bytes)
        (part.length + n)) (fun n => ?_) hzero n
      rw [ih (part ++ [b]) (by omega), happend, hlength, Nat.add_right_comm, Nat.add_assoc]

end

/-- Whatever the chunks, the finder finds the end of the first code unit, aligned from the
beginning, which is null. -/
theorem findNullCpInChunks_eq (cu : CodeUnit) (chunks : List (List UInt8)) :
    findNullCpInChunks cu [] chunks = (findNullCp cu [] chunks.flatten).1 ∧
      (∀ pos, (findNullCp cu [] chunks.flatten).1 = some pos ↔
        IsFirstNullCp cu chunks.flatten pos) ∧
      ((findNullCp cu [] chunks.flatten).1 = none ↔
        ∀ start, ¬NullCodeUnitAt cu chunks.flatten start) := by
  have hsome : ∀ pos, (findNullCp cu [] chunks.flatten).1 = some pos ↔
      IsFirstNullCp cu chunks.flatten pos := by
    intro pos
    rw [findNullCp_eq_some_iff [] _ cu.len_pos, List.nil_append, List.length_nil, Nat.zero_add]
  refine ⟨findNullCpInChunks_eq_flatten cu [] chunks, hsome, ?_⟩
  rw [Option.eq_none_iff_forall_ne_some]
  constructor
  · intro hnone start hstart
    classical
    have hex : ∃ start, NullCodeUnitAt cu chunks.flatten start := ⟨start, hstart⟩
    exact hnone (Nat.find hex + cu.len) ((hsome _).mpr
      ⟨Nat.find hex, rfl, Nat.find_spec hex, fun _ hlt => Nat.find_min hex hlt⟩)
  · intro hnone pos hpos
    obtain ⟨start, -, hstart, -⟩ := (hsome pos).mp hpos
    exact hnone start hstart

end Babeltrace.ItemSeq
