import Mathlib

/-!
# Alignments of TSDL field classes

What the visitor sets (`visitor-generate-ir.cpp`), what `ctf_trace_class_update_alignments()` makes
of it, and what the translated field classes have. A declaration has no names: what a name refers to
is at its place. An enumeration has the properties of its container. The `align` attribute of a
structure may be anything and goes through a 32-bit integer.
-/
namespace Babeltrace.TsdlAlignments

/-! ## Model -/

inductive Decl
  | integer (size : ℕ) (align : Option ℕ) (isUtf8 : Bool)
  | floatingPoint (size : ℕ) (align : Option ℕ)
  | string
  | struct (minAlign : Option ℕ) (members : List Decl)
  | variant (options : List Decl)
  | array (length : ℕ) (elem : Decl)
  | sequence (elem : Decl)
  /-- A reference to a named field class, or to an alias -/
  | named (target : Decl)

/-- `struct ctf_field_class` -/
inductive OrigFc
  | int (alignment size : ℕ) (isUtf8 : Bool)
  | float (alignment : ℕ)
  | string (alignment : ℕ)
  | struct (alignment : ℕ) (members : List OrigFc)
  | variant (alignment : ℕ) (options : List OrigFc)
  | array (alignment : ℕ) (isText : Bool) (length : ℕ) (elemFc : OrigFc)
  | sequence (alignment : ℕ) (isText : Bool) (elemFc : OrigFc)

def OrigFc.alignment : OrigFc → ℕ
  | .int alignment _ _ | .float alignment | .string alignment | .struct alignment _
  | .variant alignment _ | .array alignment _ _ _ | .sequence alignment _ _ => alignment

inductive Fc
  | fixedLenBitArray (align : ℕ)
  | str
  | struct (align : ℕ) (members : List Fc)
  | variant (opts : List Fc)
  | array (align : ℕ) (elemFc : Fc)

def Fc.align : Fc → ℕ
  | .fixedLenBitArray align | .struct align _ | .array align _ => align
  | .str => 8
  | .variant _ => 1

def isAlignValid (align : ℕ) : Bool := align ≠ 0 ∧ align &&& (align - 1) = 0

def bitArrayAlignment (size : ℕ) : Option ℕ → Option ℕ
  | some align => if isAlignValid align then some (align % 2 ^ 32) else none
  | none => some (if size % 8 ≠ 0 then 1 else 8)

def structAlignment : Option ℕ → ℕ
  | none => 1
  | some minAlign => if minAlign ≠ 0 then minAlign % 2 ^ 32 else 1

def greatest {φ : Type} (align : φ → ℕ) (alignment : ℕ) (fcs : List φ) : ℕ :=
  fcs.foldl (fun alignment fc => if align fc > alignment then align fc else alignment) alignment

mutual

/-- `ctf_field_class_copy()` -/
def OrigFc.copy : OrigFc → OrigFc
  | .int alignment size isUtf8 => .int alignment size isUtf8
  | .float alignment => .float alignment
  | .string alignment => .string alignment
  | .struct alignment members => .struct alignment (copyMembers members)
  | .variant alignment options => .variant alignment (copyMembers options)
  | .array alignment isText length elemFc => .array alignment isText length elemFc.copy
  | .sequence alignment isText elemFc => .sequence alignment isText elemFc.copy

def OrigFc.copyMembers : List OrigFc → List OrigFc
  | [] => []
  | fc :: fcs => fc.copy :: copyMembers fcs

end

mutual

def visit : Decl → Option OrigFc
  | .integer size align isUtf8 => do return .int (← bitArrayAlignment size align) size isUtf8
  | .floatingPoint size align => do return .float (← bitArrayAlignment size align)
  | .string => some (.string 8)
  | .struct minAlign members => do
    let members ← visitMembers members
    return .struct (greatest OrigFc.alignment (structAlignment minAlign) members) members
  | .variant options => do return .variant 1 (← visitMembers options)
  | .array length elem => do return .array 1 false length (← visit elem)
  | .sequence elem => do return .sequence 1 false (← visit elem)
  | .named target => do return (← visit target).copy

def visitMembers : List Decl → Option (List OrigFc)
  | [] => some []
  | decl :: decls => do return (← visit decl) :: (← visitMembers decls)

end

def isText : OrigFc → Bool
  | .int alignment size isUtf8 => alignment = 8 ∧ size = 8 ∧ isUtf8
  | _ => false

mutual

/-- `set_text_array_sequence_field_class()` -/
def setText : OrigFc → OrigFc
  | .struct alignment members => .struct alignment (setTextMembers members)
  | .variant alignment options => .variant alignment (setTextMembers options)
  | .array alignment text length elemFc =>
    .array alignment (text || isText elemFc) length (setText elemFc)
  | .sequence alignment text elemFc => .sequence alignment (text || isText elemFc) (setText elemFc)
  | fc => fc

def setTextMembers : List OrigFc → List OrigFc
  | [] => []
  | fc :: fcs => setText fc :: setTextMembers fcs

end

mutual

def setAlignments : OrigFc → OrigFc
  | .struct alignment members =>
    .struct (greatest OrigFc.alignment alignment (setAlignmentsMembers members))
      (setAlignmentsMembers members)
  | .variant alignment options => .variant alignment (setAlignmentsMembers options)
  | .array _ text length elemFc =>
    .array (setAlignments elemFc).alignment text length (setAlignments elemFc)
  | .sequence _ text elemFc => .sequence (setAlignments elemFc).alignment text (setAlignments elemFc)
  | fc => fc

def setAlignmentsMembers : List OrigFc → List OrigFc
  | [] => []
  | fc :: fcs => setAlignments fc :: setAlignmentsMembers fcs

end

mutual

/-- `_fcFromOrigFc()`: no field class is a failed assertion. -/
def fcFromOrigFc : OrigFc → Option Fc
  | .int alignment _ _ | .float alignment =>
    if alignment > 0 then some (.fixedLenBitArray alignment) else none
  | .string _ => some .str
  | .struct alignment members => do
    let memberClasses ← fcsFromOrigFcs members
    return .struct (greatest Fc.align alignment memberClasses) memberClasses
  | .variant _ options => do return .variant (← fcsFromOrigFcs options)
  | .array alignment text _ elemFc =>
    if text then some .str
    else do
      let elemFc ← fcFromOrigFc elemFc
      return .array (max elemFc.align alignment) elemFc
  | .sequence _ text elemFc =>
    if text then some .str
    else do
      let elemFc ← fcFromOrigFc elemFc
      return .array (max elemFc.align 1) elemFc

def fcsFromOrigFcs : List OrigFc → Option (List Fc)
  | [] => some []
  | fc :: fcs => do return (← fcFromOrigFc fc) :: (← fcsFromOrigFcs fcs)

end

def translate (origFc : OrigFc) : Option Fc := fcFromOrigFc (setAlignments (setText origFc))

/-! ## Properties -/

def Decl.isText : Decl → Bool
  | .integer size align isUtf8 => align.getD 8 = 8 ∧ size = 8 ∧ isUtf8
  | .named target => target.isText
  | _ => false

mutual

/-- A structure field class has the greatest of its explicit minimum alignment and the alignments of
its members, and an array or sequence field class has the alignment of its element field class. -/
def expected : Decl → Fc
  | .integer size align _ | .floatingPoint size align =>
    .fixedLenBitArray (align.getD (if size % 8 ≠ 0 then 1 else 8))
  | .string => .str
  | .struct minAlign members =>
    .struct (greatest Fc.align (max 1 (minAlign.getD 1)) (expectedMembers members))
      (expectedMembers members)
  | .variant options => .variant (expectedMembers options)
  | .array _ elem | .sequence elem =>
    if elem.isText then .str else .array (expected elem).align (expected elem)
  | .named target => expected target

def expectedMembers : List Decl → List Fc
  | [] => []
  | decl :: decls => expected decl :: expectedMembers decls

end

mutual

def Fc.PowersOfTwo : Fc → Prop
  | .fixedLenBitArray align => align.isPowerOfTwo
  | .str => True
  | .struct align members => align.isPowerOfTwo ∧ MembersPowersOfTwo members
  | .variant opts => MembersPowersOfTwo opts
  | .array align elemFc => align.isPowerOfTwo ∧ elemFc.PowersOfTwo

def Fc.MembersPowersOfTwo : List Fc → Prop
  | [] => True
  | fc :: fcs => fc.PowersOfTwo ∧ MembersPowersOfTwo fcs

end

mutual

/-- Every `align` attribute fits in 32 bits, and the one of a structure field class is zero, a power
of two, or less than the alignment of one of its members. -/
def Decl.Fits : Decl → Prop
  | .integer _ align _ | .floatingPoint _ align => align.getD 1 < 2 ^ 32
  | .string => True
  | .struct minAlign members => MembersFit members ∧ minAlign.getD 1 < 2 ^ 32 ∧
    (minAlign.getD 1 = 0 ∨ (minAlign.getD 1).isPowerOfTwo ∨
      minAlign.getD 1 < greatest Fc.align 0 (expectedMembers members))
  | .variant options => MembersFit options
  | .array _ elem | .sequence elem => elem.Fits
  | .named target => target.Fits

def Decl.MembersFit : List Decl → Prop
  | [] => True
  | decl :: decls => decl.Fits ∧ MembersFit decls

end

/-! ## Greatest alignments -/

section
variable {φ : Type} {align : φ → ℕ} {fcs : List φ}

theorem greatest_cons (alignment : ℕ) (fc : φ) :
    greatest align alignment (fc :: fcs) = greatest align (max alignment (align fc)) fcs := by
  have hmax : max alignment (align fc) = if align fc > alignment then align fc else alignment := by
    split_ifs <;> omega
  rw [hmax]
  rfl

theorem greatest_eq_max (alignment : ℕ) :
    greatest align alignment fcs = max alignment (greatest align 0 fcs) := by
  induction fcs generalizing alignment with
  | nil => simp [greatest]
  | cons fc fcs ih =>
    rw [greatest_cons, greatest_cons, ih, ih (max 0 _)]
    omega

end

theorem isPowerOfTwo_eight : (8 : ℕ).isPowerOfTwo := ⟨3, rfl⟩

theorem isPowerOfTwo_of_isAlignValid {align : ℕ} (h : isAlignValid align) : align.isPowerOfTwo := by
  simp only [isAlignValid, decide_eq_true_eq] at h
  exact (Nat.and_sub_one_eq_zero_iff_isPowerOfTwo h.1).1 h.2

/-! ## Copies and text field classes -/

mutual

theorem OrigFc.copy_eq : ∀ fc : OrigFc, fc.copy = fc
  | .int _ _ _ | .float _ | .string _ => rfl
  | .struct _ members => by rw [copy, copyMembers_eq members]
  | .variant _ options => by rw [copy, copyMembers_eq options]
  | .array _ _ _ elemFc => by rw [copy, copy_eq elemFc]
  | .sequence _ _ elemFc => by rw [copy, copy_eq elemFc]

theorem OrigFc.copyMembers_eq : ∀ fcs : List OrigFc, copyMembers fcs = fcs
  | [] => rfl
  | fc :: fcs => by rw [copyMembers, copy_eq fc, copyMembers_eq fcs]

end

theorem bind_pure_eq_some {α β : Type} {x : Option α} {f : α → β} {b : β} :
    (do return f (← x)) = some b ↔ ∃ a, x = some a ∧ f a = b := by
  simp [Option.bind_eq_some_iff]

theorem visit_named (target : Decl) : visit (.named target) = visit target := by
  rw [visit]
  cases visit target <;> simp [OrigFc.copy_eq]

theorem mod_of_isPowerOfTwo {align : ℕ} (h : align.isPowerOfTwo) :
    align < 2 ^ 32 ∨ align % 2 ^ 32 = 0 := by
  obtain ⟨k, rfl⟩ := h
  obtain hk | hk := lt_or_ge k 32
  · exact .inl (Nat.pow_lt_pow_right (by omega) hk)
  · exact .inr (Nat.mod_eq_zero_of_dvd (pow_dvd_pow 2 hk))

theorem isText_of_visit : ∀ {decl : Decl} {origFc : OrigFc}, visit decl = some origFc →
    isText origFc = decl.isText
  | .integer size none isUtf8, origFc, h => by
    obtain rfl : _ = origFc := by simpa [visit, bitArrayAlignment] using h
    by_cases hsize : size = 8 <;> simp [isText, Decl.isText, hsize]
  | .integer size (some align) isUtf8, origFc, h => by
    by_cases hvalid : isAlignValid align
    · obtain rfl : OrigFc.int (align % 2 ^ 32) size isUtf8 = origFc := by
        simpa [visit, bitArrayAlignment, hvalid] using h
      have hmod : align % 2 ^ 32 = 8 ↔ align = 8 := by
        have := mod_of_isPowerOfTwo (isPowerOfTwo_of_isAlignValid hvalid)
        omega
      simp only [isText, Decl.isText, Option.getD_some]
      exact decide_eq_decide.2 (and_congr_left' hmod)
    · simp [visit, bitArrayAlignment, hvalid] at h
  | .floatingPoint size align, origFc, h => by
    obtain ⟨alignment, -, rfl⟩ := bind_pure_eq_some.mp h
    rfl
  | .string, origFc, h => by
    obtain rfl : _ = origFc := by simpa [visit] using h
    rfl
  | .struct _ _, origFc, h | .variant _, origFc, h | .array _ _, origFc, h
  | .sequence _, origFc, h => by
    obtain ⟨fcs, -, rfl⟩ := bind_pure_eq_some.mp h
    rfl
  | .named target, origFc, h => by
    rw [visit_named] at h
    rw [Decl.isText, isText_of_visit h]

/-! ## Fitting attributes -/

structure Right (decl : Decl) (origFc : OrigFc) : Prop where
  translate : translate origFc = some (expected decl)
  powersOfTwo : (expected decl).PowersOfTwo
  le : origFc.alignment ≤ (expected decl).align
  set : (setAlignments (setText origFc)).alignment = (expected decl).align
  lt : (expected decl).align < 2 ^ 32
  isPowerOfTwo : (expected decl).align.isPowerOfTwo

structure RightMembers (decls : List Decl) (origFcs : List OrigFc) : Prop where
  translate : fcsFromOrigFcs (setAlignmentsMembers (setTextMembers origFcs)) =
    some (expectedMembers decls)
  powersOfTwo : Fc.MembersPowersOfTwo (expectedMembers decls)
  le : greatest OrigFc.alignment 0 origFcs ≤ greatest Fc.align 0 (expectedMembers decls)
  set : greatest OrigFc.alignment 0 (setAlignmentsMembers (setTextMembers origFcs)) =
    greatest Fc.align 0 (expectedMembers decls)
  lt : greatest Fc.align 0 (expectedMembers decls) < 2 ^ 32
  isPowerOfTwo : greatest Fc.align 0 (expectedMembers decls) = 0 ∨
    (greatest Fc.align 0 (expectedMembers decls)).isPowerOfTwo

variable {decl : Decl} {origFc : OrigFc} {origFcs : List OrigFc} {size : ℕ} {minAlign : Option ℕ}
  {members : List Decl}

theorem Right.cons {decls : List Decl} (h : Right decl origFc) (h' : RightMembers decls origFcs) :
    RightMembers (decl :: decls) (origFc :: origFcs) := by
  have htranslate : fcFromOrigFc (setAlignments (setText origFc)) = some (expected decl) := h.translate
  have hle := h.le
  have hle' := h'.le
  have hlt := h.lt
  have hlt' := h'.lt
  have hcons : greatest Fc.align 0 (expectedMembers (decl :: decls)) =
      max (expected decl).align (greatest Fc.align 0 (expectedMembers decls)) := by
    rw [expectedMembers, greatest_cons, greatest_eq_max, Nat.zero_max]
  refine ⟨?_, ⟨h.powersOfTwo, h'.powersOfTwo⟩, ?_, ?_, ?_, .inr ?_⟩
  · rw [setTextMembers, setAlignmentsMembers, fcsFromOrigFcs, htranslate, h'.translate]
    rfl
  · rw [hcons, greatest_cons, greatest_eq_max, Nat.zero_max]
    omega
  · rw [hcons, setTextMembers, setAlignmentsMembers, greatest_cons, greatest_eq_max, Nat.zero_max,
      h.set, h'.set]
  · omega
  · rw [hcons]
    obtain hle | hlt := le_or_gt (greatest Fc.align 0 (expectedMembers decls)) (expected decl).align
    · rw [max_eq_left hle]
      exact h.isPowerOfTwo
    · rw [max_eq_right hlt.le]
      exact h'.isPowerOfTwo.resolve_left (by omega)

theorem bitArrayAlignment_of_fits {size alignment : ℕ} {align : Option ℕ}
    (h : bitArrayAlignment size align = some alignment) (hfits : align.getD 1 < 2 ^ 32) :
    alignment = align.getD (if size % 8 ≠ 0 then 1 else 8) ∧
      align.getD (if size % 8 ≠ 0 then 1 else 8) < 2 ^ 32 ∧
      (align.getD (if size % 8 ≠ 0 then 1 else 8)).isPowerOfTwo := by
  cases align with
  | none =>
    rw [Option.getD_none]
    refine ⟨(Option.some.inj h).symm, ?_⟩
    split_ifs
    exacts [⟨by omega, Nat.isPowerOfTwo_one⟩, ⟨by omega, isPowerOfTwo_eight⟩]
  | some align =>
    simp only [bitArrayAlignment, Option.ite_none_right_eq_some, Option.some.injEq] at h
    rw [Option.getD_some] at hfits ⊢
    exact ⟨h.2 ▸ Nat.mod_eq_of_lt hfits, hfits, isPowerOfTwo_of_isAlignValid h.1⟩

theorem right_struct (h : RightMembers members origFcs)
    (hfits : (Decl.struct minAlign members).Fits) :
    Right (.struct minAlign members)
      (.struct (greatest OrigFc.alignment (structAlignment minAlign) origFcs) origFcs) := by
  obtain ⟨-, hlt, hmin⟩ := hfits
  have hinitial : structAlignment minAlign = max 1 (minAlign.getD 1) := by
    cases minAlign with
    | none => rfl
    | some minAlign =>
      rw [Option.getD_some] at hlt
      rw [structAlignment, Option.getD_some]
      split_ifs <;> omega
  have hle := h.le
  have hset := h.set
  have hmembers := h.lt
  have halign : (expected (.struct minAlign members)).align =
      max (max 1 (minAlign.getD 1)) (greatest Fc.align 0 (expectedMembers members)) := by
    rw [expected, Fc.align, greatest_eq_max]
  have hpow : (expected (.struct minAlign members)).align.isPowerOfTwo := by
    rw [halign]
    have hcases := h.isPowerOfTwo
    obtain hle | hlt := le_or_gt (greatest Fc.align 0 (expectedMembers members)) (max 1 (minAlign.getD 1))
    · rw [max_eq_left hle]
      obtain hzero | hpow | hlt := hmin
      · exact hzero ▸ Nat.isPowerOfTwo_one
      · rw [max_eq_right (Nat.pos_of_isPowerOfTwo hpow)]
        exact hpow
      · rw [max_eq_left (by omega)]
        exact Nat.isPowerOfTwo_one
    · rw [max_eq_right hlt.le]
      exact hcases.resolve_left (by omega)
  have hstage : (setAlignments (setText (.struct
      (greatest OrigFc.alignment (structAlignment minAlign) origFcs) origFcs))).alignment =
      (expected (.struct minAlign members)).align := by
    rw [setText, setAlignments, OrigFc.alignment, greatest_eq_max, hset, greatest_eq_max, hinitial,
      halign]
    omega
  refine ⟨?_, ⟨hpow, h.powersOfTwo⟩, ?_, hstage, ?_, hpow⟩
  · rw [translate]
    rw [setText, setAlignments, OrigFc.alignment] at hstage
    rw [setText, setAlignments, fcFromOrigFc, h.translate, hstage]
    simp only [Option.bind_eq_bind, Option.bind_some, Option.pure_def, Option.some.injEq]
    rw [expected, greatest_eq_max, greatest_eq_max (max 1 _), Fc.align, greatest_eq_max]
    congr 1
    omega
  · rw [OrigFc.alignment, greatest_eq_max, hinitial, halign]
    omega
  · rw [halign]
    omega

theorem align_of_isText : ∀ {decl : Decl}, decl.isText → (expected decl).align = 8
  | .integer size align isUtf8, h => by
    obtain ⟨halign, rfl, -⟩ : align.getD 8 = 8 ∧ size = 8 ∧ isUtf8 = true := by
      simpa [Decl.isText] using h
    exact halign
  | .named target, h => by
    rw [Decl.isText] at h
    rw [expected, align_of_isText h]

theorem right_array {elem : Decl} {elemFc : OrigFc} (h : Right elem elemFc)
    (htext : isText elemFc = elem.isText) (length : ℕ) :
    Right (.array length elem) (.array 1 false length elemFc) ∧
      Right (.sequence elem) (.sequence 1 false elemFc) := by
  have hpos := Nat.pos_of_isPowerOfTwo h.isPowerOfTwo
  have hset := h.set
  have htranslate : fcFromOrigFc (setAlignments (setText elemFc)) = some (expected elem) := h.translate
  have halign : (expected (.array length elem)).align = (expected elem).align ∧
      (expected (.array length elem)).PowersOfTwo := by
    rw [expected]
    split_ifs with helem
    · exact ⟨(align_of_isText helem).symm, trivial⟩
    · exact ⟨rfl, h.isPowerOfTwo, h.powersOfTwo⟩
  constructor
  · refine ⟨?_, halign.2, halign.1 ▸ hpos, halign.1 ▸ hset, halign.1 ▸ h.lt, halign.1 ▸ h.isPowerOfTwo⟩
    rw [translate, setText, setAlignments, fcFromOrigFc, Bool.false_or, htext, expected, htranslate, hset]
    split_ifs <;> simp
  · refine ⟨?_, halign.2, halign.1 ▸ hpos, halign.1 ▸ hset, halign.1 ▸ h.lt, halign.1 ▸ h.isPowerOfTwo⟩
    rw [translate, setText, setAlignments, fcFromOrigFc, Bool.false_or, htext, expected, htranslate]
    split_ifs
    · rfl
    · simpa using Nat.succ_le_of_lt hpos

mutual

theorem right_of_fits : ∀ {decl : Decl} {origFc : OrigFc}, visit decl = some origFc → decl.Fits →
    Right decl origFc
  | .integer _ _ _, origFc, h, hfits | .floatingPoint _ _, origFc, h, hfits => by
    obtain ⟨alignment, halignment, rfl⟩ := bind_pure_eq_some.mp h
    obtain ⟨rfl, hlt, hpow⟩ := bitArrayAlignment_of_fits halignment hfits
    have hpos := Nat.pos_of_isPowerOfTwo hpow
    exact ⟨if_pos hpos, hpow, le_rfl, rfl, hlt, hpow⟩
  | .string, origFc, h, hfits => by
    obtain rfl : _ = origFc := by simpa [visit] using h
    exact ⟨rfl, trivial, le_rfl, rfl, by simp [expected, Fc.align], isPowerOfTwo_eight⟩
  | .struct minAlign members, origFc, h, hfits => by
    obtain ⟨origFcs, hmembers, rfl⟩ := bind_pure_eq_some.mp h
    exact right_struct (rightMembers_of_fits hmembers hfits.1) hfits
  | .variant options, origFc, h, hfits => by
    obtain ⟨origFcs, hoptions, rfl⟩ := bind_pure_eq_some.mp h
    have hright := rightMembers_of_fits hoptions hfits
    exact ⟨by simp [translate, setText, setAlignments, fcFromOrigFc, hright.translate, expected],
      hright.powersOfTwo, le_rfl, rfl, by simp [expected, Fc.align], Nat.isPowerOfTwo_one⟩
  | .array length elem, origFc, h, hfits => by
    obtain ⟨elemFc, helem, rfl⟩ := bind_pure_eq_some.mp h
    exact (right_array (right_of_fits helem hfits) (isText_of_visit helem) length).1
  | .sequence elem, origFc, h, hfits => by
    obtain ⟨elemFc, helem, rfl⟩ := bind_pure_eq_some.mp h
    exact (right_array (right_of_fits helem hfits) (isText_of_visit helem) 0).2
  | .named target, origFc, h, hfits => by
    rw [visit_named] at h
    rw [Decl.Fits] at hfits
    obtain ⟨htranslate, hpow, hle, hset, hlt, hpow'⟩ := right_of_fits h hfits
    exact ⟨htranslate, hpow, hle, hset, hlt, hpow'⟩

theorem rightMembers_of_fits : ∀ {decls : List Decl} {origFcs : List OrigFc},
    visitMembers decls = some origFcs → Decl.MembersFit decls → RightMembers decls origFcs
  | [], origFcs, h, _ => by
    obtain rfl : [] = origFcs := by simpa [visitMembers] using h
    exact ⟨rfl, trivial, le_rfl, rfl, by simp [expectedMembers, greatest], .inl rfl⟩
  | decl :: decls, origFcs, h, hfits => by
    simp only [visitMembers, Option.bind_eq_bind, Option.bind_eq_some_iff, Option.pure_def,
      Option.some.injEq] at h
    obtain ⟨origFc, hvisit, origFcs', hvisit', rfl⟩ := h
    have hright := right_of_fits hvisit hfits.1
    have hright' := rightMembers_of_fits hvisit' hfits.2
    exact hright.cons hright'

end

/-! ## Other attributes -/

theorem fits_of_isText : ∀ {decl : Decl}, decl.isText → decl.Fits
  | .integer size align isUtf8, h => by
    obtain ⟨halign, -, -⟩ : align.getD 8 = 8 ∧ size = 8 ∧ isUtf8 = true := by
      simpa [Decl.isText] using h
    cases align with
    | none => simp [Decl.Fits]
    | some align => simp_all [Decl.Fits]
  | .named target, h => by
    rw [Decl.isText] at h
    rw [Decl.Fits]
    exact fits_of_isText h

theorem fits_of_bitArrayAlignment {size alignment : ℕ} {align : Option ℕ}
    (h : bitArrayAlignment size align = some alignment)
    (hfc : (if alignment > 0 then some (Fc.fixedLenBitArray alignment) else none) =
      some (.fixedLenBitArray (align.getD (if size % 8 ≠ 0 then 1 else 8)))) :
    align.getD 1 < 2 ^ 32 := by
  cases align with
  | none => simp
  | some align =>
    simp only [bitArrayAlignment, Option.ite_none_right_eq_some, Option.some.injEq] at h
    simp only [Option.ite_none_right_eq_some, Option.some.injEq, Option.getD_some,
      Fc.fixedLenBitArray.injEq] at hfc
    rw [Option.getD_some]
    have := Nat.mod_lt align (show 2 ^ 32 > 0 by norm_num)
    omega

theorem fits_struct (h : RightMembers members origFcs)
    (halign : greatest Fc.align (greatest OrigFc.alignment
        (greatest OrigFc.alignment (structAlignment minAlign) origFcs)
        (setAlignmentsMembers (setTextMembers origFcs))) (expectedMembers members) =
      greatest Fc.align (max 1 (minAlign.getD 1)) (expectedMembers members))
    (hpow : (greatest Fc.align (max 1 (minAlign.getD 1)) (expectedMembers members)).isPowerOfTwo) :
    minAlign.getD 1 < 2 ^ 32 ∧ (minAlign.getD 1 = 0 ∨ (minAlign.getD 1).isPowerOfTwo ∨
      minAlign.getD 1 < greatest Fc.align 0 (expectedMembers members)) := by
  have hle := h.le
  have hlt := h.lt
  rw [greatest_eq_max, greatest_eq_max (greatest OrigFc.alignment _ origFcs), h.set,
    greatest_eq_max (structAlignment minAlign), greatest_eq_max (max 1 _)] at halign
  rw [greatest_eq_max] at hpow
  have hinitial : structAlignment minAlign < 2 ^ 32 := by
    cases minAlign with
    | none => simp [structAlignment]
    | some minAlign =>
      rw [structAlignment]
      split_ifs
      exacts [Nat.mod_lt _ (by norm_num), by norm_num]
  refine ⟨by omega, ?_⟩
  by_cases hzero : minAlign.getD 1 = 0
  · exact .inl hzero
  by_cases hmembers : minAlign.getD 1 < greatest Fc.align 0 (expectedMembers members)
  · exact .inr (.inr hmembers)
  · rw [max_eq_left (by omega), max_eq_right (by omega)] at hpow
    exact .inr (.inl hpow)

mutual

theorem fits_of_translate : ∀ {decl : Decl} {origFc : OrigFc}, visit decl = some origFc →
    translate origFc = some (expected decl) → (expected decl).PowersOfTwo → decl.Fits
  | .integer _ _ _, origFc, h, htranslate, hpow
  | .floatingPoint _ _, origFc, h, htranslate, hpow => by
    obtain ⟨alignment, halignment, rfl⟩ := bind_pure_eq_some.mp h
    exact fits_of_bitArrayAlignment halignment htranslate
  | .string, origFc, h, htranslate, hpow => trivial
  | .struct minAlign members, origFc, h, htranslate, hpow => by
    obtain ⟨origFcs, hmembers, rfl⟩ := bind_pure_eq_some.mp h
    rw [translate, setText, setAlignments, fcFromOrigFc, expected] at htranslate
    simp only [Option.bind_eq_bind, Option.bind_eq_some_iff, Option.pure_def, Option.some.injEq,
      Fc.struct.injEq] at htranslate
    obtain ⟨fcs, hfcs, halign, rfl⟩ := htranslate
    rw [expected, Fc.PowersOfTwo] at hpow
    have hfits := membersFit_of_translate hmembers hfcs hpow.2
    exact ⟨hfits, fits_struct (rightMembers_of_fits hmembers hfits) halign hpow.1⟩
  | .variant options, origFc, h, htranslate, hpow => by
    obtain ⟨origFcs, hoptions, rfl⟩ := bind_pure_eq_some.mp h
    rw [translate, setText, setAlignments, fcFromOrigFc, expected] at htranslate
    simp only [Option.bind_eq_bind, Option.bind_eq_some_iff, Option.pure_def, Option.some.injEq,
      Fc.variant.injEq] at htranslate
    obtain ⟨fcs, hfcs, rfl⟩ := htranslate
    exact membersFit_of_translate hoptions hfcs hpow
  | .array _ elem, origFc, h, htranslate, hpow | .sequence elem, origFc, h, htranslate, hpow => by
    obtain ⟨elemFc, helem, rfl⟩ := bind_pure_eq_some.mp h
    rw [Decl.Fits]
    by_cases htext : elem.isText = true
    · exact fits_of_isText htext
    rw [translate, setText, setAlignments, fcFromOrigFc, Bool.false_or, isText_of_visit helem, expected,
      if_neg htext, if_neg htext] at htranslate
    simp only [Option.bind_eq_bind, Option.bind_eq_some_iff, Option.pure_def, Option.some.injEq,
      Fc.array.injEq] at htranslate
    obtain ⟨fc, hfc, -, rfl⟩ := htranslate
    rw [expected, if_neg htext] at hpow
    exact fits_of_translate helem hfc hpow.2
  | .named target, origFc, h, htranslate, hpow => by
    rw [visit_named] at h
    rw [expected] at htranslate hpow
    rw [Decl.Fits]
    exact fits_of_translate h htranslate hpow

theorem membersFit_of_translate : ∀ {decls : List Decl} {origFcs : List OrigFc},
    visitMembers decls = some origFcs →
    fcsFromOrigFcs (setAlignmentsMembers (setTextMembers origFcs)) = some (expectedMembers decls) →
    Fc.MembersPowersOfTwo (expectedMembers decls) → Decl.MembersFit decls
  | [], _, _, _, _ => trivial
  | decl :: decls, origFcs, h, htranslate, hpow => by
    simp only [visitMembers, Option.bind_eq_bind, Option.bind_eq_some_iff, Option.pure_def,
      Option.some.injEq] at h
    obtain ⟨origFc, hvisit, origFcs', hvisit', rfl⟩ := h
    rw [setTextMembers, setAlignmentsMembers, fcsFromOrigFcs, expectedMembers] at htranslate
    simp only [Option.bind_eq_bind, Option.bind_eq_some_iff, Option.pure_def, Option.some.injEq,
      List.cons.injEq] at htranslate
    obtain ⟨fc, hfc, fcs, hfcs, rfl, rfl⟩ := htranslate
    exact ⟨fits_of_translate hvisit hfc hpow.1, membersFit_of_translate hvisit' hfcs hpow.2⟩

end

/-- The field class of a trace class is as expected from its declaration exactly when the `align`
attributes fit. -/
theorem translate_eq_expected_iff (h : visit decl = some origFc) :
    (translate origFc = some (expected decl) ∧ (expected decl).PowersOfTwo) ↔ decl.Fits :=
  ⟨fun htranslate => fits_of_translate h htranslate.1 htranslate.2, fun hfits =>
    ⟨(right_of_fits h hfits).translate, (right_of_fits h hfits).powersOfTwo⟩⟩

def pairs (minAlign : ℕ) : Decl :=
  .sequence (.struct (some minAlign) [.integer 8 none false, .integer 3 none false])

theorem translate_eq_expected_iff_pairs :
    (visit (pairs 16) >>= translate) = some (expected (pairs 16)) ∧
      (expected (pairs 16)).PowersOfTwo := by
  obtain ⟨origFc, h⟩ : ∃ origFc, visit (pairs 16) = some origFc := ⟨_, rfl⟩
  rw [h]
  refine (translate_eq_expected_iff h).2 ?_
  simp only [pairs, Decl.Fits, Decl.MembersFit, Option.getD_some, Option.getD_none]
  exact ⟨⟨by norm_num, by norm_num, trivial⟩, by norm_num, .inr (.inl ⟨4, rfl⟩)⟩

theorem translate_pairs_wrong : ∃ origFc fc, visit (pairs 12) = some origFc ∧
    translate origFc = some fc ∧ fc.align = 12 ∧ ¬(12 : ℕ).isPowerOfTwo := by
  refine ⟨_, _, rfl, rfl, rfl, ?_⟩
  rw [← Nat.and_sub_one_eq_zero_iff_isPowerOfTwo (by norm_num)]
  decide

end Babeltrace.TsdlAlignments
