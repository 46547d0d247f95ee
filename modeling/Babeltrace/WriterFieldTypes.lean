import Mathlib

/-!
# Copies and comparisons of the field types of the CTF writer

`bt_ctf_field_type_copy()` and `bt_ctf_field_type_common_compare()` (`field-types.c`), without the
developer mode. A field type has the address of its object, an integer field type the one of its
mapped clock class, which can still change, and a choice of a variant field type the one of the array
of its ranges: those are what two field types can share.

The comparison finds out that the mapped clock classes are different, and goes on; it only compares
the alignments of structure field types. The copy of an integer field type has the same clock class,
and the copy of a choice which has a range has the ranges of the original choice, not a copy of them.
-/
namespace Babeltrace.WriterFieldTypes

/-! ## Model -/

inductive ByteOrder
  | unknown
  | native
  | unspecified
  | littleEndian
  | bigEndian
  | network
  deriving DecidableEq

inductive IntegerBase
  | unknown
  | unspecified
  | binary
  | octal
  | decimal
  | hexadecimal
  deriving DecidableEq

inductive StringEncoding
  | unknown
  | none
  | utf8
  | ascii
  deriving DecidableEq

/-- `struct bt_ctf_field_type_common`, with its address -/
structure Common where
  addr : ℕ
  alignment : ℕ

/-- `κ` is what a clock class has. -/
structure ClockClass (κ : Type) where
  addr : ℕ
  props : κ

structure Integer (κ : Type) where
  mappedClockClass : Option (ClockClass κ)
  userByteOrder : ByteOrder
  isSigned : Bool
  size : ℕ
  base : IntegerBase
  encoding : StringEncoding

structure FloatingPoint where
  userByteOrder : ByteOrder
  expDig : ℕ
  mantDig : ℕ
  deriving DecidableEq

/-- `struct bt_ctf_enumeration_mapping` -/
structure Mapping where
  rangeStart : UInt64
  rangeEnd : UInt64
  string : String
  deriving DecidableEq

structure Enumeration (κ : Type) where
  common : Common
  containerCommon : Common
  containerFt : Integer κ
  entries : List Mapping

structure Ranges where
  data : ℕ
  ranges : List (UInt64 × UInt64)

structure Variant (κ : Type) where
  tagName : String
  tagFt : Option (Enumeration κ)
  choicesRanges : List Ranges
  choicesUpToDate : Bool

inductive Ft (κ : Type)
  | integer (common : Common) (int : Integer κ)
  | floatingPoint (common : Common) (flt : FloatingPoint)
  | enumeration (enum : Enumeration κ)
  | string (common : Common) (encoding : StringEncoding)
  | struct (common : Common) (fields : List (String × Ft κ))
  | variant (common : Common) (var : Variant κ) (choices : List (String × Ft κ))
  | array (common : Common) (elementFt : Ft κ) (length : ℕ)
  | sequence (common : Common) (elementFt : Ft κ) (lengthFieldName : String)

section
variable {κ : Type} {int : Integer κ} {choicesRanges : List Ranges} {tagFt : Option (Enumeration κ)}

mutual

/-- `bt_ctf_field_type_common_get_alignment()` -/
def getAlignment : Ft κ → ℕ
  | .integer common _ | .floatingPoint common _ | .string common _ | .variant common _ _ =>
    common.alignment
  | .enumeration enum => enum.common.alignment
  | .struct common fields => fieldsAlignment common.alignment fields
  | .array _ elementFt _ | .sequence _ elementFt _ => getAlignment elementFt

def fieldsAlignment (alignment : ℕ) : List (String × Ft κ) → ℕ
  | [] => alignment
  | (_, type) :: fields => fieldsAlignment (max (getAlignment type) alignment) fields

end

/-! ### Comparison -/

def integerCompare (a b : Integer κ) : Bool :=
  if a.size ≠ b.size then false
  else if a.userByteOrder ≠ b.userByteOrder then false
  else if a.isSigned ≠ b.isSigned then false
  else if a.base ≠ b.base then false
  else if a.encoding ≠ b.encoding then false
  else
    match a.mappedClockClass, b.mappedClockClass with
    | some _, none => false
    -- Different clock classes are only logged.
    | some _, some _ => true
    | none, some _ => false
    | none, none => true

/-- `bt_ctf_field_type_common_floating_point_compare()` -/
def floatingPointCompare (a b : FloatingPoint) : Bool :=
  if a.userByteOrder ≠ b.userByteOrder then false
  else if a.expDig ≠ b.expDig then false
  else if a.mantDig ≠ b.mantDig then false
  else true

/-- `bt_ctf_field_type_common_enumeration_compare_recursive()` -/
def enumerationCompare (a b : Enumeration κ) : Bool :=
  if ¬integerCompare a.containerFt b.containerFt then false
  else decide (a.entries = b.entries)

/-- The tag field types can be null. -/
def tagCompare : Option (Enumeration κ) → Option (Enumeration κ) → Bool
  | none, none => true
  | some a, some b => enumerationCompare a b
  | _, _ => false

mutual

/-- Whether or not it returns 0 -/
def compare : Ft κ → Ft κ → Bool
  | .integer _ a, .integer _ b => integerCompare a b
  | .floatingPoint _ a, .floatingPoint _ b => floatingPointCompare a b
  | .enumeration a, .enumeration b => enumerationCompare a b
  | .string _ a, .string _ b => decide (a = b)
  | .struct commonA fieldsA, .struct commonB fieldsB =>
    if fieldsAlignment commonA.alignment fieldsA ≠ fieldsAlignment commonB.alignment fieldsB then false
    else if fieldsA.length ≠ fieldsB.length then false
    else compareMembers fieldsA fieldsB
  | .variant _ a choicesA, .variant _ b choicesB =>
    if a.tagName ≠ b.tagName then false
    else if ¬tagCompare a.tagFt b.tagFt then false
    else if choicesA.length ≠ choicesB.length then false
    else compareMembers choicesA choicesB
  | .array _ elementFtA lengthA, .array _ elementFtB lengthB =>
    if lengthA ≠ lengthB then false else compare elementFtA elementFtB
  | .sequence _ elementFtA lengthFieldNameA, .sequence _ elementFtB lengthFieldNameB =>
    if lengthFieldNameA ≠ lengthFieldNameB then false else compare elementFtA elementFtB
  | _, _ => false

/-- The loops which call `compare_structure_variant_members()` -/
def compareMembers : List (String × Ft κ) → List (String × Ft κ) → Bool
  | (nameA, typeA) :: membersA, (nameB, typeB) :: membersB =>
    if nameA ≠ nameB then false
    else if ¬compare typeA typeB then false
    else compareMembers membersA membersB
  | _, _ => true

end

/-! ### Copy -/

def enumerationCopy (next : ℕ) (enum : Enumeration κ) : Enumeration κ × ℕ :=
  ({ enum with
    containerCommon := ⟨next, enum.containerCommon.alignment⟩
    common := ⟨next + 1, enum.common.alignment⟩ }, next + 2)

def tagCopy (next : ℕ) : Option (Enumeration κ) → Option (Enumeration κ) × ℕ
  | none => (none, next)
  | some tagFt =>
    let (tagFtCopy, next) := enumerationCopy next tagFt
    (some tagFtCopy, next)

/-- An element of the loop is a whole `GArray`, so that the first one is the array itself, with its
data, and there's no other one. -/
def choiceRangesCopy (next : ℕ) (entry : Ranges) : Option Ranges :=
  match entry.ranges with
  | [] => some ⟨next, []⟩
  | [_] => some entry
  | _ => none

def rangesCopy (next : ℕ) : List Ranges → Option (List Ranges × ℕ)
  | [] => some ([], next)
  | entry :: choicesRanges => do
    let copyEntry ← choiceRangesCopy next entry
    let (choicesRanges, next) ← rangesCopy (next + 1) choicesRanges
    return (copyEntry :: choicesRanges, next)

mutual

/-- No copy is an invalid access to the memory. -/
def copy (next : ℕ) : Ft κ → Option (Ft κ × ℕ)
  | .integer common int => some (.integer ⟨next, common.alignment⟩ int, next + 1)
  | .floatingPoint common flt => some (.floatingPoint ⟨next, common.alignment⟩ flt, next + 1)
  | .enumeration enum =>
    let (enumCopy, next) := enumerationCopy next enum
    some (.enumeration enumCopy, next)
  | .string common encoding => some (.string ⟨next, common.alignment⟩ encoding, next + 1)
  | .struct common fields => do
    let (fieldsCopy, next') ← copyMembers (next + 1) fields
    return (.struct ⟨next, common.alignment⟩ fieldsCopy, next')
  | .variant common var choices => do
    let (tagFtCopy, next) := tagCopy next var.tagFt
    let (choicesCopy, next') ← copyMembers (next + 1) choices
    let (choicesRanges, next') ← rangesCopy next' var.choicesRanges
    return (.variant ⟨next, common.alignment⟩
      { var with tagFt := tagFtCopy, choicesRanges := choicesRanges } choicesCopy, next')
  | .array common elementFt length => do
    let (elementFtCopy, next) ← copy next elementFt
    return (.array ⟨next, common.alignment⟩ elementFtCopy length, next + 1)
  | .sequence common elementFt lengthFieldName => do
    let (elementFtCopy, next) ← copy next elementFt
    return (.sequence ⟨next, common.alignment⟩ elementFtCopy lengthFieldName, next + 1)

def copyMembers (next : ℕ) : List (String × Ft κ) → Option (List (String × Ft κ) × ℕ)
  | [] => some ([], next)
  | (name, type) :: members => do
    let (typeCopy, next) ← copy next type
    let (membersCopy, next) ← copyMembers next members
    return ((name, typeCopy) :: membersCopy, next)

end

/-! ## Properties -/

def Integer.contents (int : Integer κ) : Integer κ :=
  { int with mappedClockClass := int.mappedClockClass.map fun clockClass => ⟨0, clockClass.props⟩ }

def Enumeration.contents (enum : Enumeration κ) : Enumeration κ :=
  { enum with
    common := ⟨0, enum.common.alignment⟩
    containerCommon := ⟨0, enum.containerCommon.alignment⟩
    containerFt := enum.containerFt.contents }

mutual

/-- Without the addresses and what the choices of a variant field type get from its tag -/
def contents : Ft κ → Ft κ
  | .integer common int => .integer ⟨0, common.alignment⟩ int.contents
  | .floatingPoint common flt => .floatingPoint ⟨0, common.alignment⟩ flt
  | .enumeration enum => .enumeration enum.contents
  | .string common encoding => .string ⟨0, common.alignment⟩ encoding
  | .struct common fields =>
    .struct ⟨0, fieldsAlignment common.alignment fields⟩ (contentsMembers fields)
  | .variant common var choices =>
    .variant ⟨0, common.alignment⟩ ⟨var.tagName, var.tagFt.map Enumeration.contents, [], false⟩
      (contentsMembers choices)
  | .array _ elementFt length => .array ⟨0, getAlignment elementFt⟩ (contents elementFt) length
  | .sequence _ elementFt lengthFieldName =>
    .sequence ⟨0, getAlignment elementFt⟩ (contents elementFt) lengthFieldName

def contentsMembers : List (String × Ft κ) → List (String × Ft κ)
  | [] => []
  | (name, type) :: members => (name, contents type) :: contentsMembers members

end

def Integer.strip (int : Integer κ) : Integer Unit :=
  { int with mappedClockClass := int.mappedClockClass.map fun _ => ⟨0, ()⟩ }

def Enumeration.strip (enum : Enumeration κ) : Enumeration Unit :=
  ⟨⟨0, 0⟩, ⟨0, 0⟩, enum.containerFt.strip, enum.entries⟩

mutual

/-- Neither what the mapped clock classes are, nor the alignments, those of structure field types
apart -/
def strip : Ft κ → Ft Unit
  | .integer _ int => .integer ⟨0, 0⟩ int.strip
  | .floatingPoint _ flt => .floatingPoint ⟨0, 0⟩ flt
  | .enumeration enum => .enumeration enum.strip
  | .string _ encoding => .string ⟨0, 0⟩ encoding
  | .struct common fields => .struct ⟨0, common.alignment⟩ (stripMembers fields)
  | .variant _ var choices =>
    .variant ⟨0, 0⟩ ⟨var.tagName, var.tagFt.map Enumeration.strip, [], false⟩ (stripMembers choices)
  | .array _ elementFt length => .array ⟨0, 0⟩ (strip elementFt) length
  | .sequence _ elementFt lengthFieldName => .sequence ⟨0, 0⟩ (strip elementFt) lengthFieldName

def stripMembers : List (String × Ft κ) → List (String × Ft Unit)
  | [] => []
  | (name, type) :: members => (name, strip type) :: stripMembers members

end

def Integer.parts (int : Integer κ) : List ℕ := (int.mappedClockClass.map ClockClass.addr).toList

def Enumeration.parts (enum : Enumeration κ) : List ℕ :=
  enum.common.addr :: enum.containerCommon.addr :: enum.containerFt.parts

mutual

def parts : Ft κ → List ℕ
  | .integer common int => common.addr :: int.parts
  | .floatingPoint common _ | .string common _ => [common.addr]
  | .enumeration enum => enum.parts
  | .struct common fields => common.addr :: partsMembers fields
  | .variant common var choices => common.addr :: (var.tagFt.elim [] Enumeration.parts ++
    var.choicesRanges.map Ranges.data ++ partsMembers choices)
  | .array common elementFt _ | .sequence common elementFt _ => common.addr :: parts elementFt

def partsMembers : List (String × Ft κ) → List ℕ
  | [] => []
  | (_, type) :: members => parts type ++ partsMembers members

end

/-- Any change of what's at some address -/
structure Change (κ : Type) where
  addr : ℕ
  ft : Ft κ → Ft κ
  int : Integer κ → Integer κ
  enum : Enumeration κ → Enumeration κ
  ranges : Ranges → Ranges

namespace Change

def onFt (change : Change κ) (addr : ℕ) (t : Ft κ) : Ft κ := if addr = change.addr then change.ft t else t

def onInt (change : Change κ) (int : Integer κ) : Integer κ :=
  if change.addr ∈ int.parts then change.int int else int

def onEnum (change : Change κ) (enum : Enumeration κ) : Enumeration κ :=
  if change.addr ∈ enum.parts then change.enum enum else enum

def onRanges (change : Change κ) (ranges : Ranges) : Ranges :=
  if ranges.data = change.addr then change.ranges ranges else ranges

mutual

def apply (change : Change κ) : Ft κ → Ft κ
  | .integer common int => change.onFt common.addr (.integer common (change.onInt int))
  | .floatingPoint common flt => change.onFt common.addr (.floatingPoint common flt)
  | .enumeration enum => .enumeration (change.onEnum enum)
  | .string common encoding => change.onFt common.addr (.string common encoding)
  | .struct common fields => change.onFt common.addr (.struct common (change.applyMembers fields))
  | .variant common var choices => change.onFt common.addr (.variant common
    { var with
      tagFt := var.tagFt.map change.onEnum
      choicesRanges := var.choicesRanges.map change.onRanges } (change.applyMembers choices))
  | .array common elementFt length =>
    change.onFt common.addr (.array common (change.apply elementFt) length)
  | .sequence common elementFt lengthFieldName =>
    change.onFt common.addr (.sequence common (change.apply elementFt) lengthFieldName)

def applyMembers (change : Change κ) : List (String × Ft κ) → List (String × Ft κ)
  | [] => []
  | (name, type) :: members => (name, change.apply type) :: change.applyMembers members

end

end Change

def Enumeration.IsUnclocked (enum : Enumeration κ) : Prop := enum.containerFt.mappedClockClass = none

mutual

/-- Neither a mapped clock class nor a choice which has a range -/
def IsPlain : Ft κ → Prop
  | .integer _ int => int.mappedClockClass = none
  | .floatingPoint _ _ | .string _ _ => True
  | .enumeration enum => enum.IsUnclocked
  | .struct _ fields => IsPlainMembers fields
  | .variant _ var choices => (∀ enum ∈ var.tagFt, enum.IsUnclocked) ∧
    (∀ entry ∈ var.choicesRanges, entry.ranges = []) ∧ IsPlainMembers choices
  | .array _ elementFt _ | .sequence _ elementFt _ => IsPlain elementFt

def IsPlainMembers : List (String × Ft κ) → Prop
  | [] => True
  | (_, type) :: members => IsPlain type ∧ IsPlainMembers members

end

/-! ## Comparison -/

theorem integerCompare_iff {a b : Integer κ} : integerCompare a b = true ↔ a.strip = b.strip := by
  obtain ⟨clockA, _, _, _, _, _⟩ := a
  obtain ⟨clockB, _, _, _, _, _⟩ := b
  cases clockA <;> cases clockB <;> simp [integerCompare, Integer.strip] <;> tauto

theorem Integer.strip_contents (int : Integer κ) : int.contents.strip = int.strip := by
  obtain ⟨_ | _, _, _, _, _, _⟩ := int <;> rfl

theorem floatingPointCompare_iff {a b : FloatingPoint} : floatingPointCompare a b = true ↔ a = b := by
  obtain ⟨_, _, _⟩ := a
  obtain ⟨_, _, _⟩ := b
  simp [floatingPointCompare]

theorem enumerationCompare_iff {a b : Enumeration κ} :
    enumerationCompare a b = true ↔ a.strip = b.strip := by
  simp [enumerationCompare, Enumeration.strip, integerCompare_iff]

theorem tagCompare_iff {a b : Option (Enumeration κ)} :
    tagCompare a b = true ↔ a.map Enumeration.strip = b.map Enumeration.strip := by
  cases a <;> cases b <;> simp [tagCompare, enumerationCompare_iff]

theorem Enumeration.strip_contents (enum : Enumeration κ) : enum.contents.strip = enum.strip := by
  simp only [Enumeration.strip, Enumeration.contents, Integer.strip_contents]

mutual

theorem compare_iff : ∀ s t : Ft κ, compare s t = true ↔ strip (contents s) = strip (contents t)
  | .integer _ a, t => by
    cases t <;> simp [compare, contents, strip, integerCompare_iff, Integer.strip_contents]
  | .floatingPoint _ a, t => by
    cases t <;> simp [compare, contents, strip, floatingPointCompare_iff]
  | .enumeration a, t => by
    cases t with
    | enumeration b =>
      simp only [compare, contents, strip, Ft.enumeration.injEq, Enumeration.strip_contents]
      exact enumerationCompare_iff
    | _ => simp [compare, contents, strip]
  | .string _ a, t => by
    cases t <;> simp [compare, contents, strip]
  | .struct commonA fieldsA, t => by
    cases t with
    | struct commonB fieldsB =>
      simp [compare, contents, strip, ← compareMembers_iff fieldsA fieldsB]
    | _ => simp [compare, contents, strip]
  | .variant _ a choicesA, t => by
    cases t with
    | variant commonB b choicesB =>
      simp [compare, contents, strip, ← compareMembers_iff choicesA choicesB, tagCompare_iff,
        Function.comp_def, Enumeration.strip_contents, and_assoc, and_left_comm]
    | _ => simp [compare, contents, strip]
  | .array _ elementFt _, t | .sequence _ elementFt _, t => by
    cases t with
    | array _ elementFtB _ | sequence _ elementFtB _ =>
      simp [compare, contents, strip, compare_iff elementFt elementFtB, and_comm]
    | _ => simp [compare, contents, strip]

theorem compareMembers_iff : ∀ l l' : List (String × Ft κ),
    (l.length = l'.length ∧ compareMembers l l' = true) ↔
      stripMembers (contentsMembers l) = stripMembers (contentsMembers l')
  | [], l' => by cases l' <;> simp [compareMembers, contentsMembers, stripMembers]
  | (name, type) :: members, l' => by
    cases l' with
    | nil => simp [contentsMembers, stripMembers]
    | cons member' members' =>
      simp [compareMembers, contentsMembers, stripMembers, compare_iff type member'.2,
        ← compareMembers_iff members members', and_assoc, and_left_comm]

end

/-! ## Copy -/

namespace Change
variable {change : Change κ}

theorem onFt_of_ne {addr : ℕ} (h : change.addr ≠ addr) (t : Ft κ) : change.onFt addr t = t :=
  if_neg h.symm

theorem onInt_of_not_mem (h : change.addr ∉ int.parts) : change.onInt int = int :=
  if_neg h

theorem onEnum_of_not_mem {enum : Enumeration κ} (h : change.addr ∉ enum.parts) :
    change.onEnum enum = enum :=
  if_neg h

theorem map_onRanges (h : change.addr ∉ choicesRanges.map Ranges.data) :
    choicesRanges.map change.onRanges = choicesRanges := by
  refine (List.map_congr_left fun ranges hmem => ?_).trans choicesRanges.map_id
  have hne : ranges.data ≠ change.addr := fun heq => h (heq ▸ List.mem_map_of_mem hmem)
  exact if_neg hne

mutual

theorem apply_eq_self : ∀ t : Ft κ, change.addr ∉ parts t → change.apply t = t
  | .integer common int, h => by
    simp only [parts, List.mem_cons, not_or] at h
    rw [apply, onFt_of_ne h.1, onInt_of_not_mem h.2]
  | .floatingPoint common flt, h => onFt_of_ne (by simpa [parts] using h) _
  | .enumeration enum, h => by rw [apply, onEnum_of_not_mem h]
  | .string common encoding, h => onFt_of_ne (by simpa [parts] using h) _
  | .struct common fields, h => by
    simp only [parts, List.mem_cons, not_or] at h
    rw [apply, onFt_of_ne h.1, applyMembers_eq_self fields h.2]
  | .variant common ⟨tagName, tagFt, choicesRanges, choicesUpToDate⟩ choices, h => by
    simp only [parts, List.mem_cons, List.mem_append, not_or] at h
    obtain ⟨hvar, ⟨htag, hranges⟩, hchoices⟩ := h
    have htag' : tagFt.map change.onEnum = tagFt := by
      cases tagFt with
      | none => rfl
      | some enum => exact congrArg some (onEnum_of_not_mem htag)
    rw [apply, onFt_of_ne hvar, applyMembers_eq_self choices hchoices]
    simp only [htag', map_onRanges hranges]
  | .array _ elementFt _, h | .sequence _ elementFt _, h => by
    simp only [parts, List.mem_cons, not_or] at h
    rw [apply, onFt_of_ne h.1, apply_eq_self elementFt h.2]

theorem applyMembers_eq_self : ∀ members : List (String × Ft κ), change.addr ∉ partsMembers members →
    change.applyMembers members = members
  | [], _ => rfl
  | (name, type) :: members, h => by
    simp only [partsMembers, List.mem_append, not_or] at h
    rw [applyMembers, apply_eq_self type h.1, applyMembers_eq_self members h.2]

end

end Change

def Ft.alignment : Ft κ → ℕ
  | .integer common _ | .floatingPoint common _ | .string common _ | .struct common _
  | .variant common _ _ | .array common _ _ | .sequence common _ _ => common.alignment
  | .enumeration enum => enum.common.alignment

theorem getAlignment_eq (t : Ft κ) : getAlignment t = (contents t).alignment := by
  cases t <;> rfl

theorem fieldsAlignment_congr {l l' : List (String × Ft κ)}
    (h : contentsMembers l = contentsMembers l') (alignment : ℕ) :
    fieldsAlignment alignment l = fieldsAlignment alignment l' := by
  induction l generalizing l' alignment with
  | nil => cases l' <;> simp_all [contentsMembers]
  | cons member l ih =>
    cases l' with
    | nil => simp [contentsMembers] at h
    | cons member' l' =>
      simp only [contentsMembers, List.cons.injEq, Prod.mk.injEq] at h
      rw [fieldsAlignment, fieldsAlignment, getAlignment_eq, h.1.2, ← getAlignment_eq]
      exact ih h.2 _

theorem rangesCopy_eq (h : ∀ entry ∈ choicesRanges, entry.ranges = []) (next : ℕ) :
    ∃ copies, rangesCopy next choicesRanges = some (copies, next + choicesRanges.length) ∧
      ∀ x ∈ copies.map Ranges.data, next ≤ x ∧ x < next + choicesRanges.length := by
  induction choicesRanges generalizing next with
  | nil => exact ⟨[], rfl, by simp⟩
  | cons entry choicesRanges ih =>
    rw [List.forall_mem_cons] at h
    obtain ⟨copies, hcopies, hdata⟩ := ih h.2 (next + 1)
    refine ⟨⟨next, []⟩ :: copies, ?_, ?_⟩
    · simp [rangesCopy, choiceRangesCopy, h.1, hcopies]
      omega
    · simp only [List.map_cons, List.forall_mem_cons, List.length_cons]
      exact ⟨by omega, fun x hx => by have := hdata x hx; omega⟩

theorem rangesCopy_shares {choicesRanges copies : List Ranges} {next next' : ℕ}
    (h : rangesCopy next choicesRanges = some (copies, next'))
    (hranges : ¬∀ entry ∈ choicesRanges, entry.ranges = []) :
    ∃ x ∈ choicesRanges.map Ranges.data, x ∈ copies.map Ranges.data := by
  induction choicesRanges generalizing next copies next' with
  | nil => simp at hranges
  | cons entry choicesRanges ih =>
    simp only [rangesCopy, Option.bind_eq_bind, Option.bind_eq_some_iff, Prod.exists, Option.pure_def,
      Option.some.injEq, Prod.mk.injEq] at h
    obtain ⟨copyEntry, hentry, copies', next'', hcopies, rfl, rfl⟩ := h
    by_cases hrest : ∀ entry ∈ choicesRanges, entry.ranges = []
    · -- The entry has ranges: its copy is the array itself.
      unfold choiceRangesCopy at hentry
      split at hentry
      · simp_all
      · obtain rfl := Option.some.inj hentry
        exact ⟨entry.data, by simp, by simp⟩
      · cases hentry
    · obtain ⟨x, hx, hx'⟩ := ih hcopies hrest
      exact ⟨x, by simp [hx], by simp [hx']⟩

theorem Integer.parts_eq_nil (h : int.mappedClockClass = none) : int.parts = [] := by
  rw [Integer.parts, h]
  rfl

theorem Integer.exists_mem_parts (h : int.mappedClockClass ≠ none) : ∃ x, x ∈ int.parts := by
  obtain ⟨clockClass, hclockClass⟩ := Option.ne_none_iff_exists'.mp h
  exact ⟨clockClass.addr, by simp [Integer.parts, hclockClass]⟩

theorem tagCopy_copies (h : ∀ enum ∈ tagFt, enum.IsUnclocked) (next : ℕ) :
    (tagCopy next tagFt).1.map Enumeration.contents = tagFt.map Enumeration.contents ∧
      next ≤ (tagCopy next tagFt).2 ∧ ∀ x ∈ (tagCopy next tagFt).1.elim [] Enumeration.parts,
        next ≤ x ∧ x < (tagCopy next tagFt).2 := by
  cases tagFt with
  | none => exact ⟨rfl, le_rfl, by simp [tagCopy]⟩
  | some tagFt => exact ⟨rfl, by simp [tagCopy, enumerationCopy],
      by simp [tagCopy, enumerationCopy, Enumeration.parts, Integer.parts_eq_nil (h tagFt rfl)]⟩

theorem tagCopy_shares (h : ¬∀ enum ∈ tagFt, enum.IsUnclocked) (next : ℕ) :
    ∃ x ∈ tagFt.elim [] Enumeration.parts,
      x ∈ (tagCopy next tagFt).1.elim [] Enumeration.parts := by
  cases tagFt with
  | none => simp at h
  | some tagFt =>
    have hclocked : tagFt.containerFt.mappedClockClass ≠ none := fun hnone =>
      h fun _ henum => Option.some.inj henum ▸ hnone
    obtain ⟨x, hx⟩ := Integer.exists_mem_parts hclocked
    exact ⟨x, by simp [Enumeration.parts, hx],
      by simp [tagCopy, enumerationCopy, Enumeration.parts, hx]⟩

def Copies (t u : Ft κ) (next next' : ℕ) : Prop :=
  contents u = contents t ∧ next ≤ next' ∧ ∀ x ∈ parts u, next ≤ x ∧ x < next'

mutual

theorem copy_copies : ∀ (t : Ft κ) (next : ℕ), IsPlain t →
    ∃ u next', copy next t = some (u, next') ∧ Copies t u next next'
  | .integer common int, next, h =>
    ⟨_, _, rfl, rfl, by omega, by simp [parts, Integer.parts_eq_nil h]⟩
  | .floatingPoint _ _, next, _ | .string _ _, next, _ =>
    ⟨_, _, rfl, rfl, by omega, by simp [parts]⟩
  | .enumeration enum, next, h =>
    ⟨_, _, rfl, rfl, by omega, by simp [parts, Enumeration.parts, Integer.parts_eq_nil h]⟩
  | .struct common fields, next, h => by
    obtain ⟨fieldsCopy, next', hcopy, hcontents, hle, hparts⟩ :=
      copyMembers_copies fields (next + 1) h
    refine ⟨.struct ⟨next, common.alignment⟩ fieldsCopy, next', by simp [copy, hcopy], ?_, by omega, ?_⟩
    · simp [contents, hcontents, fieldsAlignment_congr hcontents]
    · simp only [parts, List.forall_mem_cons]
      exact ⟨by omega, fun x hx => by have := hparts x hx; omega⟩
  | .variant common var choices, next, h => by
    obtain ⟨htagFt, hchoicesRanges, hchoices⟩ := h
    obtain ⟨htag, hle, hparts⟩ := tagCopy_copies htagFt next
    obtain ⟨choicesCopy, next₁, hcopy, hcontents, hle₁, hparts₁⟩ :=
      copyMembers_copies choices ((tagCopy next var.tagFt).2 + 1) hchoices
    obtain ⟨choicesRanges, hranges, hdata⟩ := rangesCopy_eq hchoicesRanges next₁
    refine ⟨.variant ⟨(tagCopy next var.tagFt).2, common.alignment⟩
      { var with tagFt := (tagCopy next var.tagFt).1, choicesRanges := choicesRanges } choicesCopy,
      next₁ + var.choicesRanges.length, by simp [copy, hcopy, hranges], ?_, by omega, ?_⟩
    · simp [contents, hcontents, htag]
    · simp only [parts, List.forall_mem_cons, List.forall_mem_append]
      exact ⟨by omega, ⟨fun x hx => by have := hparts x hx; omega,
        fun x hx => by have := hdata x hx; omega⟩, fun x hx => by have := hparts₁ x hx; omega⟩
  | .array _ elementFt _, next, h | .sequence _ elementFt _, next, h => by
    obtain ⟨elementFtCopy, next', hcopy, hcontents, hle, hparts⟩ := copy_copies elementFt next h
    refine ⟨_, next' + 1, by rw [copy, hcopy]; rfl, ?_, by omega, ?_⟩
    · simp [contents, hcontents, getAlignment_eq]
    · simp only [parts, List.forall_mem_cons]
      exact ⟨by omega, fun x hx => by have := hparts x hx; omega⟩

theorem copyMembers_copies : ∀ (members : List (String × Ft κ)) (next : ℕ),
    IsPlainMembers members →
    ∃ copies next', copyMembers next members = some (copies, next') ∧
      contentsMembers copies = contentsMembers members ∧ next ≤ next' ∧
      ∀ x ∈ partsMembers copies, next ≤ x ∧ x < next'
  | [], next, _ => ⟨[], next, rfl, rfl, le_rfl, by simp [partsMembers]⟩
  | (name, type) :: members, next, h => by
    obtain ⟨typeCopy, next₁, hcopy, hcontents, hle, hparts⟩ := copy_copies type next h.1
    obtain ⟨copies, next₂, hcopies, hcontents', hle', hparts'⟩ :=
      copyMembers_copies members next₁ h.2
    refine ⟨(name, typeCopy) :: copies, next₂, by simp [copyMembers, hcopy, hcopies],
      by simp [contentsMembers, hcontents, hcontents'], by omega, ?_⟩
    simp only [partsMembers, List.forall_mem_append]
    exact ⟨fun x hx => by have := hparts x hx; omega, fun x hx => by have := hparts' x hx; omega⟩

end

mutual

theorem copy_shares : ∀ (t : Ft κ) {next next' : ℕ} {u : Ft κ}, copy next t = some (u, next') →
    ¬IsPlain t → ∃ x ∈ parts t, x ∈ parts u
  | .integer common int, next, next', u, h, hplain => by
    obtain ⟨x, hx⟩ := Integer.exists_mem_parts hplain
    cases h
    exact ⟨x, by simp [parts, hx], by simp [parts, hx]⟩
  | .enumeration enum, next, next', u, h, hplain => by
    obtain ⟨x, hx⟩ := Integer.exists_mem_parts hplain
    cases h
    exact ⟨x, by simp [parts, Enumeration.parts, hx], by simp [parts, Enumeration.parts, hx]⟩
  | .floatingPoint _ _, _, _, _, _, h | .string _ _, _, _, _, _, h => absurd trivial h
  | .struct common fields, next, next', u, h, hplain => by
    simp only [copy, Option.bind_eq_bind, Option.bind_eq_some_iff, Prod.exists, Option.pure_def,
      Option.some.injEq, Prod.mk.injEq] at h
    obtain ⟨fieldsCopy, next'', hcopy, rfl, rfl⟩ := h
    obtain ⟨x, hx, hx'⟩ := copyMembers_shares fields hcopy hplain
    exact ⟨x, by simp [parts, hx], by simp [parts, hx']⟩
  | .variant common var choices, next, next', u, h, hplain => by
    simp only [copy, Option.bind_eq_bind, Option.bind_eq_some_iff, Prod.exists, Option.pure_def,
      Option.some.injEq, Prod.mk.injEq] at h
    obtain ⟨choicesCopy, next₁, hcopy, choicesRanges, next₂, hcopyRanges, rfl, rfl⟩ := h
    by_cases htag : ∀ enum ∈ var.tagFt, enum.IsUnclocked
    · by_cases hchoices : IsPlainMembers choices
      · obtain ⟨x, hx, hx'⟩ := rangesCopy_shares hcopyRanges fun h => hplain ⟨htag, h, hchoices⟩
        exact ⟨x, by simp only [parts, List.mem_cons, List.mem_append]; tauto,
          by simp only [parts, List.mem_cons, List.mem_append]; tauto⟩
      · obtain ⟨x, hx, hx'⟩ := copyMembers_shares choices hcopy hchoices
        exact ⟨x, by simp [parts, hx], by simp [parts, hx']⟩
    · obtain ⟨x, hx, hx'⟩ := tagCopy_shares htag next
      exact ⟨x, by simp only [parts, List.mem_cons, List.mem_append]; tauto,
        by simp only [parts, List.mem_cons, List.mem_append]; tauto⟩
  | .array _ elementFt _, next, next', u, h, hplain
  | .sequence _ elementFt _, next, next', u, h, hplain => by
    simp only [copy, Option.bind_eq_bind, Option.bind_eq_some_iff, Prod.exists, Option.pure_def,
      Option.some.injEq, Prod.mk.injEq] at h
    obtain ⟨elementFtCopy, next'', hcopy, rfl, rfl⟩ := h
    obtain ⟨x, hx, hx'⟩ := copy_shares elementFt hcopy hplain
    exact ⟨x, by simp [parts, hx], by simp [parts, hx']⟩

theorem copyMembers_shares : ∀ (members : List (String × Ft κ)) {next next' : ℕ}
    {copies : List (String × Ft κ)}, copyMembers next members = some (copies, next') →
    ¬IsPlainMembers members → ∃ x ∈ partsMembers members, x ∈ partsMembers copies
  | [], _, _, _, _, h => absurd trivial h
  | (name, type) :: members, next, next', copies, h, hplain => by
    simp only [copyMembers, Option.bind_eq_bind, Option.bind_eq_some_iff, Prod.exists,
      Option.pure_def, Option.some.injEq, Prod.mk.injEq] at h
    obtain ⟨typeCopy, next₁, hcopy, copies', next₂, hcopies, rfl, rfl⟩ := h
    by_cases htype : IsPlain type
    · obtain ⟨x, hx, hx'⟩ := copyMembers_shares members hcopies fun h => hplain ⟨htype, h⟩
      exact ⟨x, by simp [partsMembers, hx], by simp [partsMembers, hx']⟩
    · obtain ⟨x, hx, hx'⟩ := copy_shares type hcopy htype
      exact ⟨x, by simp [partsMembers, hx], by simp [partsMembers, hx']⟩

end

variable (κ) in
/-- The copy is equal and independent exactly when no integer has a clock class and no choice a range,
and the comparison is exact unless the field types only differ by what it leaves out; it's always an
equivalence relation. -/
theorem copy_compare_iff :
    (∀ (t : Ft κ) (next : ℕ), (∀ x ∈ parts t, x < next) →
      ((∃ u next', copy next t = some (u, next') ∧ compare u t = true ∧
        List.Disjoint (parts t) (parts u) ∧
        (∀ change : Change κ, change.addr ∈ parts t → change.apply u = u) ∧
        ∀ change : Change κ, change.addr ∈ parts u → change.apply t = t) ↔ IsPlain t)) ∧
    (∀ s t : Ft κ, (compare s t = true ↔ contents s = contents t) ↔
      (strip (contents s) = strip (contents t) → contents s = contents t)) ∧
    Equivalence fun s t : Ft κ => compare s t = true := by
  refine ⟨fun t next hnext => ⟨?_, fun hplain => ?_⟩, fun s t => ?_, ?_⟩
  · rintro ⟨u, next', hcopy, -, hdisjoint, -, -⟩
    by_contra hplain
    obtain ⟨x, hx, hx'⟩ := copy_shares t hcopy hplain
    exact hdisjoint hx hx'
  · obtain ⟨u, next', hcopy, hcontents, -, hparts⟩ := copy_copies t next hplain
    have hdisjoint : List.Disjoint (parts t) (parts u) := fun x hx hx' => by
      have := hnext x hx
      have := hparts x hx'
      omega
    exact ⟨u, next', hcopy, (compare_iff u t).2 (congrArg strip hcontents), hdisjoint,
      fun change hmem => Change.apply_eq_self u fun hmem' => hdisjoint hmem hmem',
      fun change hmem => Change.apply_eq_self t fun hmem' => hdisjoint hmem' hmem⟩
  · rw [compare_iff]
    exact ⟨fun h => h.1, fun h => ⟨h, congrArg strip⟩⟩
  · simp only [compare_iff]
    exact ⟨fun _ => rfl, fun h => h.symm, fun h h' => h.trans h'⟩

end

def integerFt (addr : ℕ) (mappedClockClass : Option (ClockClass ℕ)) : Ft ℕ :=
  .integer ⟨addr, 8⟩ ⟨mappedClockClass, .native, false, 8, .decimal, .none⟩

def variantFt (ranges : List (UInt64 × UInt64)) : Ft ℕ :=
  .variant ⟨1, 1⟩ ⟨"tag", none, [⟨2, ranges⟩], true⟩ [("choice", integerFt 0 none)]

theorem copy_compare_iff_variantFt :
    ∃ u next', copy 3 (variantFt []) = some (u, next') ∧ compare u (variantFt []) = true ∧
      List.Disjoint [1, 2, 0] (parts u) := by
  obtain ⟨u, next', hcopy, hcompare, hdisjoint, -⟩ := ((copy_compare_iff ℕ).1 (variantFt []) 3
    (by decide)).2 ⟨by simp, by simp, rfl, trivial⟩
  exact ⟨u, next', hcopy, hcompare, hdisjoint⟩

/-- Different clock classes are the same for the comparison, and neither the copy of a range nor the
one of an integer field type has parts of its own. -/
theorem copy_compare_wrong :
    (compare (integerFt 0 (some ⟨1, 0⟩)) (integerFt 0 (some ⟨1, 1⟩)) = true ∧
      contents (integerFt 0 (some ⟨1, 0⟩)) ≠ contents (integerFt 0 (some ⟨1, 1⟩))) ∧
    (∃ u next', copy 2 (integerFt 0 (some ⟨1, 0⟩)) = some (u, next') ∧
      1 ∈ parts (integerFt 0 (some ⟨1, 0⟩)) ∧ 1 ∈ parts u) ∧
    ∃ u next', copy 3 (variantFt [(0, 0)]) = some (u, next') ∧
      2 ∈ parts (variantFt [(0, 0)]) ∧ 2 ∈ parts u :=
  ⟨⟨by decide, by simp [integerFt, contents, Integer.contents]⟩,
    ⟨_, _, rfl, by decide, by decide⟩, _, _, rfl, by decide, by decide⟩

end Babeltrace.WriterFieldTypes
