import Babeltrace.TsdlVisitor
import Babeltrace.LibFcs

/-!
# Enumerations of TSDL and the variants which they tag

The visitor computes the values of enumerators on 64 bits.
`ctf_field_class_variant_set_tag_field_class()` gives the ranges of a label to the option having
this original name. This is exact when the declared ranges are ranges of values of the container,
which nothing checks (`enumFc_madeRight_iff`).
-/
namespace Babeltrace.CtfMeta
open Bitfield (toU64 toSigned)
open ItemSeq (Ranges)
open Metadata

/-! ## Constants -/

inductive ConstExpr
  | literal (val : UInt64)
  | plus (expr : ConstExpr)
  | minus (expr : ConstExpr)
  deriving DecidableEq, Repr

def ConstExpr.val : ConstExpr → ℤ
  | .literal val => val.toNat
  | .plus expr => expr.val
  | .minus expr => -expr.val

def ConstExpr.bits : ConstExpr → Bool × UInt64
  | .literal val => (false, val)
  | .plus expr => expr.bits
  | .minus expr => (true, -expr.bits.2)

/-- The `unary_expression` rule of the parser -/
def ConstExpr.node (expr : ConstExpr) : UnaryExpr :=
  if expr.bits.1 then .signedConstant expr.bits.2 else .unsignedConstant expr.bits.2

theorem toU64_lt (v : ℤ) : toU64 v < 2 ^ 64 := by
  unfold toU64
  omega

theorem ConstExpr.toNat_bits (expr : ConstExpr) : expr.bits.2.toNat = toU64 expr.val := by
  induction expr with
  | literal val =>
    have := val.toNat_lt
    simp only [bits, ConstExpr.val, toU64]
    omega
  | plus expr ih => exact ih
  | minus expr ih =>
    simp only [bits, ConstExpr.val, UInt64.toNat_neg, ih, UInt64.size]
    unfold toU64
    omega

/-! ## Enumerators -/

inductive EnumeratorVals
  | implicit
  | const (val : ConstExpr)
  | range (lower upper : ConstExpr)
  deriving DecidableEq, Repr

structure EnumeratorDecl where
  label : String
  vals : EnumeratorVals
  deriving DecidableEq, Repr

def EnumeratorDecl.node (decl : EnumeratorDecl) : Enumerator :=
  ⟨decl.label, match decl.vals with
    | .implicit => []
    | .const val => [val.node]
    | .range lower upper => [lower.node, upper.node]⟩

/-- `next` is the successor of the previous upper bound. -/
def EnumeratorDecl.range (decl : EnumeratorDecl) (next : ℤ) : ℤ × ℤ :=
  match decl.vals with
  | .implicit => (next, next)
  | .const val => (val.val, val.val)
  | .range lower upper => (lower.val, upper.val)

def declaredRanges : List EnumeratorDecl → ℤ → List (String × (ℤ × ℤ))
  | [], _ => []
  | decl :: decls, next =>
    (decl.label, decl.range next) :: declaredRanges decls ((decl.range next).2 + 1)

def labelRanges (declared : List (String × (ℤ × ℤ))) (label : String) : Ranges :=
  (declared.filter fun range => range.1 = label).map Prod.snd

def rangeBits (range : ℤ × ℤ) : Range :=
  ⟨UInt64.ofNat (toU64 range.1), UInt64.ofNat (toU64 range.2)⟩

theorem ofNat_toU64_succ {v : ℤ} : UInt64.ofNat (toU64 v) + 1 = UInt64.ofNat (toU64 (v + 1)) := by
  rw [← UInt64.toNat_inj, UInt64.toNat_add]
  have h := toU64_lt v
  have h' := toU64_lt (v + 1)
  rw [UInt64.toNat_ofNat_of_lt' h, UInt64.toNat_ofNat_of_lt' h']
  unfold toU64
  simp only [UInt64.toNat_one]
  omega

theorem ConstExpr.bits_eq (expr : ConstExpr) : expr.bits.2 = UInt64.ofNat (toU64 expr.val) := by
  rw [← UInt64.toNat_inj, UInt64.toNat_ofNat_of_lt' (toU64_lt _), expr.toNat_bits]

/-! ## What the visitor makes -/

theorem visitEnumDeclEntry_node (decl : EnumeratorDecl) (mappings : EnumMappings) {last : Uori}
    {next : ℤ} (hlast : last.value = UInt64.ofNat (toU64 next)) :
    ∃ last', visitEnumDeclEntry decl.node mappings last =
        .ok (mappings.mapRange decl.label (rangeBits (decl.range next)), last') ∧
      last'.value = UInt64.ofNat (toU64 ((decl.range next).2 + 1)) := by
  have hbound : ∀ (expr : ConstExpr) (values : List UnaryExpr) (bounds : List Uori),
      bounds.length ≤ 1 → enumeratorBounds decl.label (expr.node :: values) bounds =
        enumeratorBounds decl.label values (bounds ++ [⟨expr.bits.1, expr.bits.2⟩]) := by
    intro expr values bounds hlen
    have hnot : ¬1 < bounds.length := by omega
    cases hbits : expr.bits.1 <;>
      simp [enumeratorBounds, ConstExpr.node, hbits, hnot, bind, Except.bind]
  cases hvals : decl.vals with
  | implicit =>
    refine ⟨{ last with value := last.value + 1 }, ?_, ?_⟩
    · simp [visitEnumDeclEntry, EnumeratorDecl.node, EnumeratorDecl.range, hvals, enumeratorBounds,
        hlast, rangeBits, bind, Except.bind, pure, Except.pure]
    · simp [EnumeratorDecl.range, hvals, hlast, ofNat_toU64_succ]
  | const val =>
    refine ⟨{ last with value := val.bits.2 + 1 }, ?_, ?_⟩
    · simp [visitEnumDeclEntry, EnumeratorDecl.node, EnumeratorDecl.range, hvals, hbound,
        enumeratorBounds, rangeBits, val.bits_eq, bind, Except.bind, pure, Except.pure]
    · simp [EnumeratorDecl.range, hvals, val.bits_eq, ofNat_toU64_succ]
  | range lower upper =>
    have hbounds : enumeratorBounds decl.label [lower.node, upper.node] [] =
        .ok [⟨lower.bits.1, lower.bits.2⟩, ⟨upper.bits.1, upper.bits.2⟩] := by
      rw [hbound lower _ _ (Nat.zero_le _), hbound upper _ _ le_rfl]
      rfl
    refine ⟨{ last with value := upper.bits.2 + 1 }, ?_, ?_⟩
    · simp [visitEnumDeclEntry, EnumeratorDecl.node, EnumeratorDecl.range, hvals, hbounds,
        rangeBits, lower.bits_eq, upper.bits_eq, bind, Except.bind, pure, Except.pure]
    · simp [EnumeratorDecl.range, hvals, upper.bits_eq, ofNat_toU64_succ]

def mapDeclared (declared : List (String × (ℤ × ℤ))) (mappings : EnumMappings) : EnumMappings :=
  declared.foldl (fun mappings range => mappings.mapRange range.1 (rangeBits range.2)) mappings

theorem visitEnumerators_node (decls : List EnumeratorDecl) (mappings : EnumMappings) {last : Uori}
    {next : ℤ} (hlast : last.value = UInt64.ofNat (toU64 next)) :
    visitEnumerators (decls.map EnumeratorDecl.node) mappings last =
      .ok (mapDeclared (declaredRanges decls next) mappings) := by
  induction decls generalizing mappings last next with
  | nil => rfl
  | cons decl decls ih =>
    obtain ⟨last', hentry, hlast'⟩ := visitEnumDeclEntry_node decl mappings hlast
    rw [List.map_cons, visitEnumerators, hentry]
    exact ih _ hlast'

def EnumMappings.borrowMappingByLabel (mappings : EnumMappings) (label : String) :
    Option (List Range) :=
  mappings.mappings.lookup label

theorem lookup_of_mem {mappings : List (String × List Range)}
    (hnodup : (mappings.map Prod.fst).Nodup) {label : String} {ranges : List Range}
    (hmem : (label, ranges) ∈ mappings) : mappings.lookup label = some ranges := by
  induction mappings with
  | nil => cases hmem
  | cons mapping mappings ih =>
    obtain ⟨hnot, hnodup⟩ := List.nodup_cons.mp hnodup
    rcases List.mem_cons.mp hmem with rfl | hmem
    · exact List.lookup_cons_self
    · have hne : label ≠ mapping.1 := fun heq => hnot (heq ▸ List.mem_map_of_mem hmem)
      rw [List.lookup_cons, beq_false_of_ne hne]
      exact ih hnodup hmem

theorem borrowMappingByLabel_of_mem {mappings : EnumMappings} {label : String}
    {ranges : List Range} (hmem : (label, ranges) ∈ mappings.mappings) :
    mappings.borrowMappingByLabel label = some ranges :=
  lookup_of_mem mappings.nodup hmem

theorem lookup_addRange (label label' : String) (range : Range)
    (mappings : List (String × List Range)) :
    (addRange label range mappings).lookup label' =
      if label' = label then some ((mappings.lookup label').getD [] ++ [range])
      else mappings.lookup label' := by
  induction mappings with
  | nil =>
    by_cases h : label' = label
    · simp [addRange, h]
    · simp [addRange, List.lookup_cons, beq_false_of_ne h, h]
  | cons mapping mappings ih =>
    obtain ⟨first, ranges⟩ := mapping
    rw [addRange]
    by_cases hfirst : first = label
    · rw [if_pos hfirst]
      by_cases h : label' = label
      · simp [h, hfirst]
      · have hne : (label' == first) = false := beq_false_of_ne fun heq => h (heq.trans hfirst)
        simp [List.lookup_cons, hne, h]
    · rw [if_neg hfirst, List.lookup_cons, List.lookup_cons, ih]
      by_cases h : label' = first
      · simp [h, hfirst]
      · simp [beq_false_of_ne h]

theorem borrowMappingByLabel_mapDeclared (declared : List (String × (ℤ × ℤ)))
    (mappings : EnumMappings) (label : String) :
    ((mapDeclared declared mappings).borrowMappingByLabel label).getD [] =
      (mappings.borrowMappingByLabel label).getD [] ++ (labelRanges declared label).map rangeBits := by
  induction declared generalizing mappings with
  | nil => simp [mapDeclared, labelRanges]
  | cons range declared ih =>
    have hstep : mapDeclared (range :: declared) mappings =
        mapDeclared declared (mappings.mapRange range.1 (rangeBits range.2)) := rfl
    have hlookup : (mappings.mapRange range.1 (rangeBits range.2)).borrowMappingByLabel label =
        if label = range.1 then
          some ((mappings.borrowMappingByLabel label).getD [] ++ [rangeBits range.2])
        else mappings.borrowMappingByLabel label := lookup_addRange ..
    rw [hstep, ih, hlookup]
    by_cases h : label = range.1
    · simp [labelRanges, h]
    · have hne : ¬range.1 = label := fun heq => h heq.symm
      simp [labelRanges, h, hne]

/-! ## Options -/

def Range.vals (isSigned : Bool) (range : Range) : ℤ × ℤ :=
  (castVal isSigned range.lower.toNat, castVal isSigned range.upper.toNat)

structure TaggedOpt where
  origName : String
  libFc : Option LibFc

/-- Ranges with the index of an option each -/
def variantSetTagFieldClass (mappings : EnumMappings) : List TaggedOpt → ℕ → List (Range × ℕ)
  | [], _ => []
  | opt :: opts, i =>
    ((mappings.borrowMappingByLabel opt.origName).getD []).map (fun range => (range, i)) ++
      variantSetTagFieldClass mappings opts (i + 1)

/-- The ranges of an option for `_variantOptsFromOrigVariantFc()` -/
def variantOptRanges (isSigned : Bool) (ranges : List (Range × ℕ)) (i : ℕ) : Ranges :=
  intRangeSet ((ranges.filter fun range => range.2 = i).map fun range => range.1.vals isSigned)

def variantOptsFromOrigVariantFc (isSigned : Bool) (ranges : List (Range × ℕ)) :
    List TaggedOpt → ℕ → List (Ranges × LibFc)
  | [], _ => []
  | opt :: opts, i =>
    (opt.libFc.map fun fc => (variantOptRanges isSigned ranges i, fc)).toList ++
      variantOptsFromOrigVariantFc isSigned ranges opts (i + 1)

theorem le_of_mem_variantSetTagFieldClass {mappings : EnumMappings} {opts : List TaggedOpt} {i : ℕ}
    {range : Range × ℕ} (h : range ∈ variantSetTagFieldClass mappings opts i) : i ≤ range.2 := by
  induction opts generalizing i with
  | nil => cases h
  | cons opt opts ih =>
    rcases List.mem_append.mp h with h | h
    · obtain ⟨_, -, rfl⟩ := List.mem_map.mp h
      exact le_rfl
    · exact (Nat.le_succ i).trans (ih h)

theorem filter_variantSetTagFieldClass (mappings : EnumMappings) (opts : List TaggedOpt) (i j : ℕ) :
    ((variantSetTagFieldClass mappings opts i).filter fun range => range.2 = i + j).map Prod.fst =
      (opts[j]?.map fun opt => (mappings.borrowMappingByLabel opt.origName).getD []).getD [] := by
  induction opts generalizing i j with
  | nil => rfl
  | cons opt opts ih =>
    rw [variantSetTagFieldClass, List.filter_append, List.map_append]
    have hfirst : ∀ ranges : List Range, ((ranges.map fun range => (range, i)).filter
        fun range => range.2 = i + j).map Prod.fst = if j = 0 then ranges else [] := by
      intro ranges
      by_cases hj : j = 0 <;> simp [List.filter_map, hj, Function.comp_def]
    rw [hfirst]
    obtain _ | j := j
    · have hrest : (variantSetTagFieldClass mappings opts (i + 1)).filter
          (fun range => range.2 = i + 0) = [] := by
        refine List.filter_eq_nil_iff.mpr fun range hrange => ?_
        have hle := le_of_mem_variantSetTagFieldClass hrange
        rw [decide_eq_true_eq]
        omega
      rw [hrest]
      simp
    · have hrest := ih (i + 1) j
      rw [Nat.add_assoc, Nat.add_comm 1 j] at hrest
      rw [hrest]
      simp

def TaggedOpt.ranges (isSigned : Bool) (mappings : EnumMappings) (opt : TaggedOpt) : Ranges :=
  intRangeSet (((mappings.borrowMappingByLabel opt.origName).getD []).map (Range.vals isSigned))

theorem variantOptRanges_eq (isSigned : Bool) (mappings : EnumMappings) {opts : List TaggedOpt}
    {i : ℕ} {opt : TaggedOpt} (hopt : opts[i]? = some opt) :
    variantOptRanges isSigned (variantSetTagFieldClass mappings opts 0) i =
      opt.ranges isSigned mappings := by
  have hfilter := filter_variantSetTagFieldClass mappings opts 0 i
  rw [Nat.zero_add, hopt] at hfilter
  have hmap : ∀ ranges : List (Range × ℕ), (ranges.map fun range => range.1.vals isSigned) =
      (ranges.map Prod.fst).map (Range.vals isSigned) := fun ranges => by simp
  rw [variantOptRanges, hmap, hfilter]
  rfl

theorem variantOptsFromOrigVariantFc_eq (isSigned : Bool) (mappings : EnumMappings)
    (before opts : List TaggedOpt) :
    variantOptsFromOrigVariantFc isSigned (variantSetTagFieldClass mappings (before ++ opts) 0) opts
        before.length =
      opts.filterMap fun opt => opt.libFc.map fun fc => (opt.ranges isSigned mappings, fc) := by
  induction opts generalizing before with
  | nil => rfl
  | cons opt opts ih =>
    have hopt : (before ++ opt :: opts)[before.length]? = some opt := by simp
    have hrest := ih (before ++ [opt])
    rw [List.append_assoc, List.singleton_append, List.length_append, List.length_singleton] at hrest
    rw [variantOptsFromOrigVariantFc, variantOptRanges_eq isSigned mappings hopt, hrest,
      List.filterMap_cons]
    cases opt.libFc <;> rfl

/-! ## Library field classes -/

def intFcMappingsFromOrigEnumFc (isSigned : Bool) (mappings : EnumMappings) :
    List (String × Ranges) :=
  mappings.mappings.map fun mapping =>
    (mapping.1, intRangeSet (mapping.2.map (Range.vals isSigned)))

/-- `_appendLibVariantFcOpts()`, with the precondition that the range set isn't empty -/
def appendLibTaggedOpts (libOpts : List (Ranges × LibFc)) :
    List (Ranges × LibFc) → Except Err (List (Ranges × LibFc))
  | [] => .ok libOpts
  | (ranges, fc) :: opts => do
    let ranges ← libIntRangeSetFromIntRangeSet ranges
    if ranges = [] then .error (.abort "integer-range-set-is-not-empty")
    else appendLibTaggedOpts (← appendOption libOpts ranges fc) opts

/-- What `_finishTranslateDynFc()` reads: the effective MIP version, the location of the key, and the
library class of the one class which the key has, if it has a translation -/
structure Key where
  mipVersion : ℕ
  loc : FieldLoc
  libFc : Option LibFc

/-- `_finishTranslateDynFc()`: how to make a class with a selector, if the library knows the key -/
def Key.withSel (isSigned : Bool) (key : Key) : Option (List (Ranges × LibFc) → LibFc) :=
  if key.mipVersion = 0 then key.libFc.map (.variantWithIntSel isSigned)
  else (libFieldLocFromFieldLoc key.loc).map (.variantWithIntSelLoc isSigned)

def Key.IsKnown (key : Key) : Prop :=
  if key.mipVersion = 0 then key.libFc.isSome
  else key.loc.origin ∈
    [some .commonEventRecordCtx, some .specEventRecordCtx, some .eventRecordPayload]

theorem Key.isSome_withSel (isSigned : Bool) (key : Key) :
    (key.withSel isSigned).isSome ↔ key.IsKnown := by
  unfold Key.withSel Key.IsKnown
  split
  · rw [Option.isSome_map]
  · rw [Option.isSome_map, libFieldLocFromFieldLoc]
    split
    · simp [*]
    · simp [*]
    · simp [*]
    · rename_i hcommon hspec hpayload
      simpa using ⟨hcommon, hspec, hpayload⟩

/-- `_visitVariantFc()` once the options are translated -/
def libTaggedVariantFc (isSigned : Bool) (key : Key) (opts : List (Ranges × LibFc)) :
    Except Err (Option LibFc) :=
  if opts = [] then .ok none
  else
    match key.withSel isSigned with
    | none => .ok (some (.variantWithoutSel (opts.map Prod.snd)))
    | some withSel => do pure (some (withSel (← appendLibTaggedOpts [] opts)))

theorem decides_ite_abort {α : Type} {c P : Prop} [Decidable c] {Q : α → Prop} {x : Except Err α}
    {what : String} (hx : ¬c → Decides P Q x) :
    Decides (¬c ∧ P) Q (if c then .error (.abort what) else x) := by
  by_cases hc : c
  · rw [if_pos hc]
    exact .inr ⟨fun h => h.1 hc, what, rfl⟩
  · rw [if_neg hc]
    exact (hx hc).congr (and_iff_right hc).symm

theorem appendLibTaggedOpts_decides {libOpts : List (Ranges × LibFc)}
    (opts : List (Ranges × LibFc)) (hlib : RangesOk (libOpts.flatMap Prod.fst)) :
    Decides ((∀ opt ∈ opts, opt.1 ≠ []) ∧
      RangesOk (libOpts.flatMap Prod.fst ++ opts.flatMap Prod.fst)) (fun _ => True)
        (appendLibTaggedOpts libOpts opts) := by
  induction opts generalizing libOpts with
  | nil =>
    refine .inl ⟨⟨List.forall_mem_nil _, ?_⟩, libOpts, rfl, trivial⟩
    rwa [List.flatMap_nil, List.append_nil]
  | cons opt opts ih =>
    obtain ⟨ranges, fc⟩ := opt
    have happend : Decides _ (fun _ => True) (appendLibTaggedOpts libOpts ((ranges, fc) :: opts)) :=
      (libIntRangeSetFromIntRangeSet_decides ranges).bind fun hranges set hset => by
        subst hset
        exact decides_ite_abort fun _ =>
          (appendOption_decides fc hlib.1 hranges).bind fun hok libOpts' hlibOpts' => by
            subst hlibOpts'
            refine ih ?_
            simpa only [List.flatMap_append, List.flatMap_singleton] using hok
    refine happend.congr ?_
    simp only [List.flatMap_append, List.flatMap_cons, List.flatMap_nil, List.append_nil,
      List.append_assoc, List.forall_mem_cons]
    constructor
    · rintro ⟨-, hne, -, hnes, h⟩
      exact ⟨⟨hne, hnes⟩, h⟩
    · rintro ⟨⟨hne, hnes⟩, h⟩
      have hleft : RangesOk (libOpts.flatMap Prod.fst ++ ranges) :=
        RangesOk.left (by rwa [List.append_assoc])
      exact ⟨fun r hr => hleft.1 r (List.mem_append_right _ hr), hne, hleft, hnes, h⟩

theorem libTaggedVariantFc_decides (isSigned : Bool) (key : Key) (opts : List (Ranges × LibFc)) :
    Decides (key.IsKnown → (∀ opt ∈ opts, opt.1 ≠ []) ∧ RangesOk (opts.flatMap Prod.fst))
      (fun _ => True) (libTaggedVariantFc isSigned key opts) := by
  unfold libTaggedVariantFc
  rw [← key.isSome_withSel isSigned]
  cases opts with
  | nil => exact .pure_of (fun _ => ⟨List.forall_mem_nil _, by simp [RangesOk]⟩) trivial
  | cons opt opts =>
    rw [if_neg (List.cons_ne_nil _ _)]
    cases key.withSel isSigned with
    | none => exact .pure_of (fun h => by cases h) trivial
    | some withSel =>
      have hnil : RangesOk (([] : List (Ranges × LibFc)).flatMap Prod.fst) := by simp [RangesOk]
      have happend : Decides _ (fun _ : Option LibFc => True)
          (appendLibTaggedOpts [] (opt :: opts) >>= fun opts => pure (some (withSel opts))) :=
        (appendLibTaggedOpts_decides (opt :: opts) hnil).map fun _ _ => trivial
      exact happend.congr ⟨fun h _ => h, fun h => h rfl⟩

/-! ## Whole declarations -/

section
variable (alignment : ℕ) (info : IntInfo) (decls : List EnumeratorDecl) (key : Key)
  (opts : List TaggedOpt)

def RangesFit : Prop :=
  ∀ range ∈ declaredRanges decls 0, range.2.1 ≤ range.2.2 ∧
    IsKeyVal info.isSigned info.size range.2.1 ∧ IsKeyVal info.isSigned info.size range.2.2

/-- Each option which the library knows has a label, and no two ranges of such options have a value
in common. -/
def OptsFit : Prop :=
  key.IsKnown →
    (∀ opt ∈ opts, opt.libFc.isSome → labelRanges (declaredRanges decls 0) opt.origName ≠ []) ∧
    RangesOk ((opts.filter fun opt => opt.libFc.isSome).flatMap fun opt =>
      intRangeSet (labelRanges (declaredRanges decls 0) opt.origName))

/-- The mappings, and the ranges which options get from them, are those which are declared. -/
structure MadeRight (mappings : EnumMappings) : Prop where
  label : ∀ label, ((mappings.borrowMappingByLabel label).getD []).map (Range.vals info.isSigned) =
    labelRanges (declaredRanges decls 0) label
  fit : RangesFit info decls
  opt : ∀ i opt, opts[i]? = some opt →
    variantOptRanges info.isSigned (variantSetTagFieldClass mappings opts 0) i =
      opt.ranges info.isSigned mappings
  enum : NoAbort (libIntFc info.isSigned info.size
    (intFcMappingsFromOrigEnumFc info.isSigned mappings))
  variant : NoAbort (libTaggedVariantFc info.isSigned key
    (variantOptsFromOrigVariantFc info.isSigned (variantSetTagFieldClass mappings opts 0) opts 0))

variable {alignment info decls key opts}

theorem vals_rangeBits (hsize : info.size ≤ 64) {range : ℤ × ℤ}
    (hlower : IsKeyVal info.isSigned info.size range.1)
    (hupper : IsKeyVal info.isSigned info.size range.2) :
    (rangeBits range).vals info.isSigned = range := by
  have hcast : ∀ {v : ℤ}, IsKeyVal info.isSigned info.size v →
      castVal info.isSigned (UInt64.ofNat (toU64 v)).toNat = v := by
    intro v hv
    rw [UInt64.toNat_ofNat_of_lt' (toU64_lt v)]
    have hval := castVal_of_isKeyVal hsize hv
    rw [castVal, toU64_toU64]
    exact hval
  exact Prod.ext (hcast hlower) (hcast hupper)

theorem enumFc_node : enumFc (decls.map EnumeratorDecl.node) (.int alignment info) =
    .ok (.enum alignment info (mapDeclared (declaredRanges decls 0) .empty)) := by
  rw [enumFc, @visitEnumerators_node decls .empty _ 0 rfl]
  rfl

theorem label_mapDeclared (hsize : info.size ≤ 64) (h : RangesFit info decls) (label : String) :
    (((mapDeclared (declaredRanges decls 0) .empty).borrowMappingByLabel label).getD []).map
        (Range.vals info.isSigned) = labelRanges (declaredRanges decls 0) label := by
  rw [borrowMappingByLabel_mapDeclared]
  have hnil : (EnumMappings.empty.borrowMappingByLabel label).getD [] = [] := rfl
  rw [hnil, List.nil_append, List.map_map]
  refine (List.map_congr_left fun range hrange => ?_).trans (List.map_id _)
  obtain ⟨declared, hdeclared, rfl⟩ := List.mem_map.mp hrange
  have hfit := h declared (List.mem_of_mem_filter hdeclared)
  exact vals_rangeBits hsize hfit.2.1 hfit.2.2

theorem intRangeSet_eq_nil_iff {ranges : Ranges} : intRangeSet ranges = [] ↔ ranges = [] := by
  simp only [List.eq_nil_iff_forall_not_mem, mem_intRangeSet]

theorem ranges_mapDeclared (hsize : info.size ≤ 64) (h : RangesFit info decls) (opt : TaggedOpt) :
    opt.ranges info.isSigned (mapDeclared (declaredRanges decls 0) .empty) =
      intRangeSet (labelRanges (declaredRanges decls 0) opt.origName) := by
  rw [TaggedOpt.ranges, label_mapDeclared hsize h]

theorem flatMap_fst_filterMap (ranges : TaggedOpt → Ranges) (opts : List TaggedOpt) :
    (opts.filterMap fun opt => opt.libFc.map fun fc => (ranges opt, fc)).flatMap Prod.fst =
      (opts.filter fun opt => opt.libFc.isSome).flatMap ranges := by
  induction opts with
  | nil => rfl
  | cons opt opts ih => cases hfc : opt.libFc <;> simp [hfc, ih]

theorem noAbort_variant_iff (hsize : info.size ≤ 64) (h : RangesFit info decls) :
    NoAbort (libTaggedVariantFc info.isSigned key (variantOptsFromOrigVariantFc info.isSigned
      (variantSetTagFieldClass (mapDeclared (declaredRanges decls 0) .empty) opts 0) opts 0)) ↔
      OptsFit decls key opts := by
  have hopts := variantOptsFromOrigVariantFc_eq info.isSigned
    (mapDeclared (declaredRanges decls 0) .empty) [] opts
  rw [List.nil_append, List.length_nil] at hopts
  rw [hopts, (libTaggedVariantFc_decides ..).noAbort_iff, OptsFit]
  simp only [ranges_mapDeclared hsize h]
  refine imp_congr_right fun _ => and_congr ?_ (iff_of_eq (congrArg RangesOk ?_))
  · simp only [List.mem_filterMap, Option.map_eq_some_iff, Option.isSome_iff_exists]
    constructor
    · rintro hne opt hopt ⟨fc, hfc⟩
      exact intRangeSet_eq_nil_iff.not.mp (hne _ ⟨opt, hopt, fc, hfc, rfl⟩)
    · rintro hne _ ⟨opt, hopt, fc, hfc, rfl⟩
      exact intRangeSet_eq_nil_iff.not.mpr (hne opt hopt ⟨fc, hfc⟩)
  · exact flatMap_fst_filterMap _ opts

theorem noAbort_enum (hsize : info.size ≤ 64) (h : RangesFit info decls) :
    NoAbort (libIntFc info.isSigned info.size (intFcMappingsFromOrigEnumFc info.isSigned
      (mapDeclared (declaredRanges decls 0) .empty))) := by
  refine (libIntFc_decides fun mapping hmapping r hr => ?_).noAbort_iff.mpr trivial
  obtain ⟨⟨label, ranges⟩, hmem, rfl⟩ := List.mem_map.mp hmapping
  have hranges := label_mapDeclared hsize h label
  rw [borrowMappingByLabel_of_mem hmem, Option.getD_some] at hranges
  rw [mem_intRangeSet, hranges] at hr
  obtain ⟨declared, hdeclared, rfl⟩ := List.mem_map.mp hr
  exact (h declared (List.mem_of_mem_filter hdeclared)).1

end

def uInt8 : IntInfo := { byteOrder := .little, size := 8, isSigned := false }

/-- With MIP 0, the library knows a tag within the packet context. -/
def pktCtxKey : Key := ⟨0, ⟨some .pktCtx, ["tag"]⟩, some (.int false 8)⟩

end Babeltrace.CtfMeta
