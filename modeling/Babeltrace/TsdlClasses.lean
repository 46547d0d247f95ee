import Mathlib
import Babeltrace.ItemSeqModel

/-!
# Field classes of TSDL metadata

The field classes which the TSDL visitor builds (`metadata/tsdl/ctf-meta.hpp`), and their copies.
What later passes set has its initial value here.
-/
namespace Babeltrace.CtfMeta
open ItemSeq (ByteOrder)

/-! ## Names -/

/-- The name of a member or option in trace IR -/
def unescapeOrigName (origName : String) : String :=
  match origName.toList with
  | '_' :: cs => String.ofList cs
  | _ => origName

def IsEscaped (name : String) : Prop := ∃ cs, name.toList = '_' :: cs

theorem unescapeOrigName_of_not_isEscaped {name : String} (h : ¬IsEscaped name) :
    unescapeOrigName name = name := by
  unfold unescapeOrigName
  split
  · rename_i cs hcs
    exact absurd ⟨cs, hcs⟩ h
  · rfl

/-! ## Enumeration mappings -/

/-- `ctf_range`: the bit patterns of the bounds -/
structure Range where
  lower : UInt64
  upper : UInt64
  deriving DecidableEq, Repr

/-- Each label has one mapping, with at least one range. -/
@[ext]
structure EnumMappings where
  mappings : List (String × List Range)
  nodup : (mappings.map Prod.fst).Nodup
  ranges_ne_nil : ∀ mapping ∈ mappings, mapping.2 ≠ []

def EnumMappings.empty : EnumMappings := ⟨[], List.nodup_nil, List.forall_mem_nil _⟩

def addRange (label : String) (range : Range) :
    List (String × List Range) → List (String × List Range)
  | [] => [(label, [range])]
  | mapping :: mappings =>
    if mapping.1 = label then (mapping.1, mapping.2 ++ [range]) :: mappings
    else mapping :: addRange label range mappings

theorem map_fst_addRange (label : String) (range : Range) (mappings : List (String × List Range)) :
    (addRange label range mappings).map Prod.fst =
      if label ∈ mappings.map Prod.fst then mappings.map Prod.fst
      else mappings.map Prod.fst ++ [label] := by
  induction mappings with
  | nil => simp [addRange]
  | cons mapping mappings ih =>
    by_cases h : mapping.1 = label
    · simp [addRange, h]
    · have hne : label ≠ mapping.1 := fun heq => h heq.symm
      simp only [addRange, h, if_false, List.map_cons, ih, List.mem_cons, hne, false_or]
      split <;> rfl

variable {label : String} {range : Range} {mappings : List (String × List Range)}

theorem nodup_addRange (h : (mappings.map Prod.fst).Nodup) :
    ((addRange label range mappings).map Prod.fst).Nodup := by
  rw [map_fst_addRange]
  split
  · exact h
  · rename_i hlabel
    simpa [List.concat_eq_append] using h.concat hlabel

theorem ranges_ne_nil_addRange (h : ∀ mapping ∈ mappings, mapping.2 ≠ []) :
    ∀ mapping ∈ addRange label range mappings, mapping.2 ≠ [] := by
  induction mappings with
  | nil => simp [addRange]
  | cons mapping mappings ih =>
    obtain ⟨hhead, htail⟩ := List.forall_mem_cons.mp h
    rw [addRange]
    split
    · exact List.forall_mem_cons.mpr ⟨by simp, htail⟩
    · exact List.forall_mem_cons.mpr ⟨hhead, ih htail⟩

/-- `ctf_field_class_enum_map_range()` -/
def EnumMappings.mapRange (m : EnumMappings) (label : String) (range : Range) : EnumMappings :=
  ⟨addRange label range m.mappings, nodup_addRange m.nodup, ranges_ne_nil_addRange m.ranges_ne_nil⟩

/-- The loops of `_ctf_field_class_enum_copy()` -/
def EnumMappings.copy (m : EnumMappings) : EnumMappings :=
  m.mappings.foldl (fun copy mapping =>
    mapping.2.foldl (fun copy range => copy.mapRange mapping.1 range) copy) .empty

theorem addRange_append_new (h : label ∉ mappings.map Prod.fst) :
    addRange label range mappings = mappings ++ [(label, [range])] := by
  induction mappings with
  | nil => rfl
  | cons mapping mappings ih =>
    rw [List.map_cons, List.mem_cons, not_or] at h
    rw [addRange, if_neg (Ne.symm h.1), ih h.2, List.cons_append]

theorem addRange_append_last {ranges : List Range} (h : label ∉ mappings.map Prod.fst) :
    addRange label range (mappings ++ [(label, ranges)]) =
      mappings ++ [(label, ranges ++ [range])] := by
  induction mappings with
  | nil => simp [addRange]
  | cons mapping mappings ih =>
    rw [List.map_cons, List.mem_cons, not_or] at h
    rw [List.cons_append, addRange, if_neg (Ne.symm h.1), ih h.2, List.cons_append]

theorem mappings_foldl_mapRange {done : List (String × List Range)} {acc : EnumMappings}
    {first : List Range} (hlabel : label ∉ done.map Prod.fst)
    (hacc : acc.mappings = done ++ [(label, first)]) (ranges : List Range) :
    (ranges.foldl (fun copy range => copy.mapRange label range) acc).mappings =
      done ++ [(label, first ++ ranges)] := by
  induction ranges generalizing acc first with
  | nil => simpa using hacc
  | cons range ranges ih =>
    have hstep : (acc.mapRange label range).mappings = done ++ [(label, first ++ [range])] := by
      show addRange label range acc.mappings = _
      rw [hacc, addRange_append_last hlabel]
    simpa using ih hstep

theorem mappings_foldl_copy (mappings done : List (String × List Range)) {acc : EnumMappings}
    (hnodup : ((done ++ mappings).map Prod.fst).Nodup)
    (hne : ∀ mapping ∈ mappings, mapping.2 ≠ []) (hacc : acc.mappings = done) :
    (mappings.foldl (fun copy mapping =>
      mapping.2.foldl (fun copy range => copy.mapRange mapping.1 range) copy) acc).mappings =
        done ++ mappings := by
  induction mappings generalizing acc done with
  | nil => simpa using hacc
  | cons mapping mappings ih =>
    obtain ⟨label, ranges⟩ := mapping
    obtain ⟨hhead, htail⟩ := List.forall_mem_cons.mp hne
    obtain ⟨range, ranges, rfl⟩ := List.exists_cons_of_ne_nil hhead
    have hlabel : label ∉ done.map Prod.fst := by
      rw [List.map_append, List.map_cons, List.nodup_append] at hnodup
      exact fun h => hnodup.2.2 label h label (List.mem_cons_self ..) rfl
    have hfirst : (acc.mapRange label range).mappings = done ++ [(label, [range])] := by
      show addRange label range acc.mappings = _
      rw [hacc, addRange_append_new hlabel]
    have hstep := mappings_foldl_mapRange hlabel hfirst ranges
    rw [List.append_cons] at hnodup ⊢
    exact ih (done ++ [(label, range :: ranges)]) hnodup htail hstep

theorem EnumMappings.copy_eq (m : EnumMappings) : m.copy = m := by
  refine EnumMappings.ext ?_
  exact mappings_foldl_copy m.mappings [] (by simpa using m.nodup) m.ranges_ne_nil rfl

/-! ## Field classes -/

inductive DispBase
  | bin
  | oct
  | dec
  | hex
  deriving DecidableEq, Repr

/-- `ctf_field_class_int`, beside its alignment -/
structure IntInfo where
  byteOrder : ByteOrder
  size : ℕ
  isSigned : Bool
  dispBase : DispBase := .dec
  isText : Bool := false
  mappedClockClass : Option String := none
  deriving DecidableEq, Repr

/-- `ctf_field_class`. The trace IR name of a member or option is always `unescapeOrigName` of its
original name. -/
inductive Fc
  | int (alignment : ℕ) (info : IntInfo)
  | enum (alignment : ℕ) (info : IntInfo) (mappings : EnumMappings)
  | float (alignment : ℕ) (byteOrder : ByteOrder) (size : ℕ)
  | string
  | struct (alignment : ℕ) (members : List (String × Fc))
  | variant (tagRef : String) (options : List (String × Fc))
  | array (length : ℕ) (elemFc : Fc)
  | sequence (lengthRef : String) (elemFc : Fc)

def Fc.alignment : Fc → ℕ
  | .int alignment _ | .enum alignment _ _ | .float alignment _ _ | .struct alignment _ => alignment
  | .string => 8
  | .variant _ _ | .array _ _ | .sequence _ _ => 1

mutual

/-- The functions which append a member or an option receive the trace IR name as the original one.
-/
def Fc.copy : Fc → Fc
  | .int alignment info => .int alignment info
  | .enum alignment info mappings => .enum alignment info mappings.copy
  | .float alignment byteOrder size => .float alignment byteOrder size
  | .string => .string
  | .struct alignment members => .struct alignment (copyNamed members)
  | .variant tagRef options => .variant tagRef (copyNamed options)
  | .array length elemFc => .array length elemFc.copy
  | .sequence lengthRef elemFc => .sequence lengthRef elemFc.copy

def copyNamed : List (String × Fc) → List (String × Fc)
  | [] => []
  | (origName, fc) :: named => (unescapeOrigName origName, fc.copy) :: copyNamed named

end

mutual

def Fc.mapNames (f : String → String) : Fc → Fc
  | .int alignment info => .int alignment info
  | .enum alignment info mappings => .enum alignment info mappings
  | .float alignment byteOrder size => .float alignment byteOrder size
  | .string => .string
  | .struct alignment members => .struct alignment (mapNamesNamed f members)
  | .variant tagRef options => .variant tagRef (mapNamesNamed f options)
  | .array length elemFc => .array length (elemFc.mapNames f)
  | .sequence lengthRef elemFc => .sequence lengthRef (elemFc.mapNames f)

def mapNamesNamed (f : String → String) : List (String × Fc) → List (String × Fc)
  | [] => []
  | (name, fc) :: named => (f name, fc.mapNames f) :: mapNamesNamed f named

end

mutual

def Fc.names : Fc → List String
  | .int _ _ | .enum _ _ _ | .float _ _ _ | .string => []
  | .struct _ members => namesNamed members
  | .variant _ options => namesNamed options
  | .array _ elemFc => elemFc.names
  | .sequence _ elemFc => elemFc.names

def namesNamed : List (String × Fc) → List String
  | [] => []
  | (name, fc) :: named => name :: (fc.names ++ namesNamed named)

end

mutual

theorem Fc.copy_eq_mapNames : ∀ fc : Fc, fc.copy = fc.mapNames unescapeOrigName
  | .int _ _ | .float _ _ _ | .string => rfl
  | .enum _ _ mappings => by rw [Fc.copy, Fc.mapNames, mappings.copy_eq]
  | .struct _ named | .variant _ named => by
    rw [Fc.copy, Fc.mapNames, copyNamed_eq_mapNamesNamed named]
  | .array _ elemFc | .sequence _ elemFc => by rw [Fc.copy, Fc.mapNames, elemFc.copy_eq_mapNames]

theorem copyNamed_eq_mapNamesNamed : ∀ named : List (String × Fc),
    copyNamed named = mapNamesNamed unescapeOrigName named
  | [] => rfl
  | (_, fc) :: named => by
    rw [copyNamed, mapNamesNamed, fc.copy_eq_mapNames, copyNamed_eq_mapNamesNamed named]

end

mutual

theorem Fc.mapNames_comp (f g : String → String) : ∀ fc : Fc,
    (fc.mapNames f).mapNames g = fc.mapNames (g ∘ f)
  | .int _ _ | .enum _ _ _ | .float _ _ _ | .string => rfl
  | .struct _ named | .variant _ named => by simp only [Fc.mapNames, mapNamesNamed_comp f g named]
  | .array _ elemFc | .sequence _ elemFc => by simp only [Fc.mapNames, elemFc.mapNames_comp f g]

theorem mapNamesNamed_comp (f g : String → String) : ∀ named : List (String × Fc),
    mapNamesNamed g (mapNamesNamed f named) = mapNamesNamed (g ∘ f) named
  | [] => rfl
  | (_, fc) :: named => by
    simp only [mapNamesNamed, fc.mapNames_comp f g, mapNamesNamed_comp f g named,
      Function.comp_apply]

end

mutual

theorem Fc.mapNames_eq_self (f : String → String) : ∀ fc : Fc,
    fc.mapNames f = fc ↔ ∀ name ∈ fc.names, f name = name
  | .int _ _ | .enum _ _ _ | .float _ _ _ | .string => by simp [Fc.mapNames, Fc.names]
  | .struct _ members => by
    simp only [Fc.mapNames, Fc.names, Fc.struct.injEq, true_and, mapNamesNamed_eq_self f members]
  | .variant _ options => by
    simp only [Fc.mapNames, Fc.names, Fc.variant.injEq, true_and, mapNamesNamed_eq_self f options]
  | .array _ elemFc => by
    simp only [Fc.mapNames, Fc.names, Fc.array.injEq, true_and, elemFc.mapNames_eq_self f]
  | .sequence _ elemFc => by
    simp only [Fc.mapNames, Fc.names, Fc.sequence.injEq, true_and, elemFc.mapNames_eq_self f]

theorem mapNamesNamed_eq_self (f : String → String) : ∀ named : List (String × Fc),
    mapNamesNamed f named = named ↔ ∀ name ∈ namesNamed named, f name = name
  | [] => by simp [mapNamesNamed, namesNamed]
  | (name, fc) :: named => by
    simp only [mapNamesNamed, namesNamed, List.cons.injEq, Prod.mk.injEq, List.forall_mem_cons,
      List.forall_mem_append, fc.mapNames_eq_self f, mapNamesNamed_eq_self f named, and_assoc]

end

theorem Fc.mapNames_id (fc : Fc) : fc.mapNames id = fc :=
  (fc.mapNames_eq_self id).mpr fun _ _ => rfl

theorem Fc.iterate_copy (n : ℕ) (fc : Fc) :
    Fc.copy^[n] fc = fc.mapNames unescapeOrigName^[n] := by
  induction n with
  | zero => exact fc.mapNames_id.symm
  | succ n ih =>
    rw [Function.iterate_succ_apply', ih, Fc.copy_eq_mapNames, Fc.mapNames_comp,
      Function.iterate_succ']

theorem map_fst_mapNamesNamed (f : String → String) (named : List (String × Fc)) :
    (mapNamesNamed f named).map Prod.fst = (named.map Prod.fst).map f := by
  induction named with
  | nil => rfl
  | cons member named ih => simp [mapNamesNamed, ih]

end Babeltrace.CtfMeta
