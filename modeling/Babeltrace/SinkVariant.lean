import Babeltrace.RangeSets

/-!
# Variant field classes of a `sink.ctf.fs` component (CTF 1.8)

`translate_variant_field_class()` keeps the selector if it's an enumeration of which the mappings,
found by range set, have the names of the options, possibly protected with `_`. Otherwise a
generated tag precedes the variant (`tag_is_before`).
-/

namespace Babeltrace.SinkVariant

open RangeSets

/-! ## Names -/

abbrev Name := List Char

def reservedTsdlKeywords : List Name :=
  ["align", "callsite", "const", "char", "clock", "double", "enum", "env", "event",
    "floating_point", "float", "integer", "int", "long", "short", "signed", "stream", "string",
    "struct", "trace", "typealias", "typedef", "unsigned", "variant", "void", "_Bool", "_Complex",
    "_Imaginary"].map String.toList

def isIdentifier : Name → Bool
  | [] => false
  | c :: cs => (c.isAlpha || c == '_') && (c :: cs).all fun d => d.isAlphanum || d == '_'

def istValidIdentifier (name : Name) : Bool :=
  !reservedTsdlKeywords.contains name && isIdentifier name

def mustProtectIdentifier (name : Name) : Bool :=
  reservedTsdlKeywords.contains name || name.head? == some '_'

def isReservedMemberName (name reservedName : Name) : Bool :=
  name == reservedName || name == '_' :: reservedName

/-- The names which `cur_path_stack_push()` refuses in the packet context -/
def reservedMemberNames : List Name :=
  ["packet_size", "content_size", "timestamp_begin", "timestamp_end", "events_discarded",
    "packet_seq_num"].map String.toList

def curPathStackPush (inPacketContext forceProtectName : Bool) (name : Name) : Option Name :=
  let elemName := if forceProtectName then '_' :: name else name
  if inPacketContext && reservedMemberNames.any (isReservedMemberName name) then none
  else if istValidIdentifier elemName then some elemName
  else none

/-! ## Variant field classes -/

structure Opt where
  name : Name
  ranges : RangeSet
deriving DecidableEq, Repr

structure Mapping where
  label : Name
  ranges : RangeSet
deriving DecidableEq, Repr

inductive SelectorFc
  | integer
  | enumeration (mappings : List Mapping)
deriving DecidableEq, Repr

def SelectorFc.mappings : SelectorFc → List Mapping
  | .integer => []
  | .enumeration mappings => mappings

/-! ## Selector -/

inductive FieldPathItem
  | index
  | currentArrayElement
  | currentOptionContent
deriving DecidableEq, Repr

/-- `inCurScope` is whether or not the path begins in the current scope, and `isReachedByName` whether
or not the current path has the name of the selector, for the selector itself. -/
structure Selector where
  path : List FieldPathItem
  inCurScope : Bool
  isReachedByName : Bool
  fc : SelectorFc
deriving DecidableEq, Repr

/-- Whether or not it finds the field class; `none` when it aborts. -/
def createRelativeFieldRef (isReachedByName : Bool) : List FieldPathItem → Option Bool
  | [] => some isReachedByName
  | .index :: items => createRelativeFieldRef isReachedByName items
  | .currentOptionContent :: _ => some false
  -- It remains at this item with the element, which isn't an array field class in the end.
  | .currentArrayElement :: _ => none

def createAbsoluteFieldRef (path : List FieldPathItem) : Bool :=
  path.all fun item => item = .index

/-- `some none` when the tag has to be created before; `none` when it aborts. -/
def resolveFieldClass : Option Selector → Option (Option SelectorFc)
  | none => some none
  | some sel =>
    if sel.inCurScope then
      match createRelativeFieldRef sel.isReachedByName sel.path with
      | none => none
      | some true => some (some sel.fc)
      | some false => some (if createAbsoluteFieldRef sel.path then some sel.fc else none)
    else if createAbsoluteFieldRef sel.path then some (some sel.fc) else none

/-! ## Translation -/

/-- The label of the first mapping with the range set of the option -/
def mappingLabel (mappings : List Mapping) (opt : Opt) : Option Name :=
  (mappings.find? fun mapping => compareRangeSets opt.ranges mapping.ranges).map Mapping.label

/-- Whether or not it succeeds, and `name_buf` -/
def maybeProtectVariantOptionName (mappings : List Mapping) (opt : Opt) : Bool × Name :=
  let forceProtect := mustProtectIdentifier opt.name
  let nameBuf := if forceProtect then '_' :: opt.name else opt.name
  match mappingLabel mappings opt with
  | none => (false, nameBuf)
  | some label =>
    if label = nameBuf then (true, nameBuf)
    else if forceProtect then (false, nameBuf)
    else if label = [] then (false, nameBuf)
    else (label = '_' :: opt.name, '_' :: opt.name)

/-- The name of an option which comes once `tag_is_before` is set remains empty. -/
def firstPass (mappings : List Mapping) : (tagIsBefore : Bool) → List Opt → List Name × Bool
  | tagIsBefore, [] => ([], tagIsBefore)
  | true, _ :: opts => ([] :: (firstPass mappings true opts).1, (firstPass mappings true opts).2)
  | false, opt :: opts =>
    let res := maybeProtectVariantOptionName mappings opt
    (res.2 :: (firstPass mappings (!res.1) opts).1, (firstPass mappings (!res.1) opts).2)

/-- `tag_is_before` before the first pass -/
def isTagBefore (optCount : ℕ) : Option SelectorFc → Bool
  | some (.enumeration mappings) => mappings.length != optCount
  | _ => true

inductive TranslateErr
  | failed
  | aborted
deriving DecidableEq, Repr

/-- `translateFieldClass` is the translation of the field class of an option. -/
def translateVariantFieldClass (inPacketContext : Bool) (translateFieldClass : Opt → Bool)
    (selector : Option Selector) (opts : List Opt) : Except TranslateErr (List Name × Bool) :=
  match resolveFieldClass selector with
  | none => .error .aborted
  | some tgtFc =>
    let res := firstPass (tgtFc.elim [] SelectorFc.mappings) (isTagBefore opts.length tgtFc) opts
    if (res.1.zip opts).all fun (name, opt) =>
        (curPathStackPush inPacketContext false name).isSome && translateFieldClass opt then
      .ok (res.1, res.2 || !decide res.1.Nodup)
    else .error .failed

/-! ## The names which the first pass finds -/

section

variable {mappings : List Mapping} {opts : List Opt} {opt : Opt} {name : Name}
  {inPacketContext : Bool}

def foundName (mappings : List Mapping) (opt : Opt) : Name :=
  (maybeProtectVariantOptionName mappings opt).2

def Found (mappings : List Mapping) (opt : Opt) : Prop :=
  (maybeProtectVariantOptionName mappings opt).1 = true

/-- The option can have this name in TSDL. -/
def Spells (opt : Opt) (name : Name) : Prop :=
  name = '_' :: opt.name ∨
    name = opt.name ∧ opt.name ∉ reservedTsdlKeywords ∧ opt.name.head? ≠ some '_'

theorem mustProtectIdentifier_eq_false :
    mustProtectIdentifier name = false ↔ name ∉ reservedTsdlKeywords ∧ name.head? ≠ some '_' := by
  simp [mustProtectIdentifier]

-- `name_buf` is the name without protection unless it's needed or the label is another name.
theorem foundName_eq (mappings : List Mapping) (opt : Opt) :
    foundName mappings opt = if mustProtectIdentifier opt.name = false ∧
      mappingLabel mappings opt ∈ [none, some opt.name, some []] then opt.name
      else '_' :: opt.name := by
  unfold foundName maybeProtectVariantOptionName
  cases hprot : mustProtectIdentifier opt.name <;> cases hlabel : mappingLabel mappings opt <;> grind

theorem found_iff (mappings : List Mapping) (opt : Opt) :
    Found mappings opt ↔ ∃ name, Spells opt name ∧ mappingLabel mappings opt = some name := by
  unfold Found maybeProtectVariantOptionName Spells
  rw [← mustProtectIdentifier_eq_false]
  cases hprot : mustProtectIdentifier opt.name <;> cases hlabel : mappingLabel mappings opt <;> grind

theorem Found.mappingLabel_eq (h : Found mappings opt) :
    mappingLabel mappings opt = some (foundName mappings opt) := by
  unfold Found maybeProtectVariantOptionName at h
  unfold foundName maybeProtectVariantOptionName
  cases hlabel : mappingLabel mappings opt <;> grind

theorem name_eq_of_foundName_eq {opt' : Opt}
    (h : foundName mappings opt = foundName mappings opt') : opt.name = opt'.name := by
  have hhead {n n' : Name} (hn : mustProtectIdentifier n = false) : n ≠ '_' :: n' := by
    rintro rfl
    exact (mustProtectIdentifier_eq_false.mp hn).2 rfl
  rw [foundName_eq, foundName_eq] at h
  grind

theorem istValidIdentifier_iff (hname : isIdentifier name = true) :
    istValidIdentifier name = true ↔ name ∉ reservedTsdlKeywords := by
  simp [istValidIdentifier, hname]

theorem isIdentifier_protected (hname : isIdentifier name = true) :
    isIdentifier ('_' :: name) = true := by
  cases name with
  | nil => cases hname
  | cons c cs => simp_all [isIdentifier]

theorem isReserved_iff :
    reservedMemberNames.any (isReservedMemberName name) = true ↔
      name ∈ reservedMemberNames ∨ ∃ name' ∈ reservedMemberNames, name = '_' :: name' := by
  simp only [List.any_eq_true, isReservedMemberName, Bool.or_eq_true, beq_iff_eq]
  grind

theorem push_iff :
    (curPathStackPush inPacketContext false name).isSome = true ↔
      (inPacketContext = true → reservedMemberNames.any (isReservedMemberName name) = false) ∧
        istValidIdentifier name = true := by
  unfold curPathStackPush
  cases inPacketContext <;> grind

theorem push_foundName_iff (hname : isIdentifier opt.name = true) :
    (curPathStackPush inPacketContext false (foundName mappings opt)).isSome = true ↔
      (inPacketContext = true → opt.name ∉ reservedMemberNames) ∧
        ('_' :: opt.name ∈ reservedTsdlKeywords →
          mappingLabel mappings opt ∈ [none, some opt.name, some []]) := by
  have hkeyword : ∀ name ∈ reservedTsdlKeywords, name.head? = some '_' →
      mustProtectIdentifier name.tail = false := by decide
  have hreserved : ∀ name ∈ reservedMemberNames, name.head? ≠ some '_' := by decide
  rw [push_iff, ← Bool.not_eq_true, isReserved_iff, foundName_eq]
  split
  · rename_i h
    obtain ⟨hvalid, hhead⟩ := mustProtectIdentifier_eq_false.mp h.1
    rw [istValidIdentifier_iff hname]
    grind
  · have hne : '_' :: opt.name ∉ reservedMemberNames := fun h => hreserved _ h rfl
    have hplain (h : '_' :: opt.name ∈ reservedTsdlKeywords) := hkeyword _ h rfl
    rw [istValidIdentifier_iff (isIdentifier_protected hname)]
    grind

theorem zip_foundName (mappings : List Mapping) (opts : List Opt) :
    (opts.map (foundName mappings)).zip opts = opts.map fun opt => (foundName mappings opt, opt) := by
  simpa using List.zip_map' (f := foundName mappings) (g := id) (l := opts)

theorem firstPass_true : firstPass mappings true opts = (opts.map fun _ => [], true) := by
  induction opts with
  | nil => rfl
  | cons opt opts ih => rw [firstPass, ih, List.map_cons]

theorem found_of_nil_not_mem (h : [] ∉ (firstPass mappings false opts).1) :
    ∀ opt ∈ opts.dropLast, Found mappings opt := by
  induction opts with
  | nil => simp
  | cons opt opts ih =>
    cases opts with
    | nil => simp
    | cons opt' opts =>
      rw [firstPass, List.mem_cons, not_or] at h
      cases hfound : (maybeProtectVariantOptionName mappings opt).1 with
      | false => simp [hfound, firstPass_true] at h
      | true =>
        rw [hfound] at h
        rw [List.dropLast_cons_cons, List.forall_mem_cons]
        exact ⟨hfound, ih h.2⟩

theorem firstPass_of_found (h : ∀ opt ∈ opts.dropLast, Found mappings opt) :
    (firstPass mappings false opts).1 = opts.map (foundName mappings) ∧
      ((firstPass mappings false opts).2 = false → ∀ opt ∈ opts, Found mappings opt) := by
  induction opts with
  | nil => simp [firstPass]
  | cons opt opts ih =>
    cases opts with
    | nil => simp [firstPass, foundName, Found]
    | cons opt' opts =>
      rw [List.dropLast_cons_cons, List.forall_mem_cons] at h
      obtain ⟨hnames, htag⟩ := ih h.2
      rw [firstPass, h.1, Bool.not_true]
      dsimp only
      rw [hnames]
      refine ⟨rfl, fun hfalse => ?_⟩
      rw [List.forall_mem_cons]
      exact ⟨h.1, htag hfalse⟩

end

/-! ## The translation -/

/-- The names of the options are distinct identifiers. The ranges of an option don't overlap, and
range sets at one address are one object. -/
structure Variant where
  opts : List Opt
  selector : Option Selector
  opts_ne_nil : opts ≠ []
  names_nodup : (opts.map Opt.name).Nodup
  isIdentifier_name : ∀ opt ∈ opts, isIdentifier opt.name = true
  ranges_nodup : ∀ opt ∈ opts, opt.ranges.ranges.Nodup
  ranges_eq : ∀ opt ∈ opts, ∀ sel ∈ selector, ∀ mapping ∈ sel.fc.mappings,
    opt.ranges.addr = mapping.ranges.addr → opt.ranges.ranges = mapping.ranges.ranges

/-- The label of the first mapping with the ranges of the option -/
def labelOf (mappings : List Mapping) (opt : Opt) : Option Name :=
  (mappings.find? fun mapping => opt.ranges.ranges.isPerm mapping.ranges.ranges).map Mapping.label

namespace Variant

variable (v : Variant) (inPacketContext : Bool) (translateFieldClass : Opt → Bool)

/-- The names are distinct, not empty and valid, and each one is the label of the mapping with the
ranges of the option if the selector is kept. -/
def Translates : Prop :=
  ∃ names tagIsBefore,
    translateVariantFieldClass inPacketContext translateFieldClass v.selector v.opts =
        .ok (names, tagIsBefore) ∧
      names.Nodup ∧ (∀ name ∈ names, name ≠ [] ∧ istValidIdentifier name = true) ∧
      (tagIsBefore = false → ∃ sel ∈ v.selector,
        List.Forall₂ (fun opt name => labelOf sel.fc.mappings opt = some name) v.opts names)

/-- The selector is an enumeration out of arrays and optional fields with as many mappings as options,
of which the labels are names of the options but possibly the last one. -/
def SelectorFits (mappings : List Mapping) : Prop :=
  ∃ sel ∈ v.selector, (∀ item ∈ sel.path, item = .index) ∧ sel.fc = .enumeration mappings ∧
    mappings.length = v.opts.length ∧
    ∀ opt ∈ v.opts.dropLast, ∃ name, Spells opt name ∧ labelOf mappings opt = some name

/-- No option has a reserved name, or a name which would need a protection which makes a keyword. -/
def OptsFit (mappings : List Mapping) : Prop :=
  ∀ opt ∈ v.opts, (inPacketContext = true → opt.name ∉ reservedMemberNames) ∧
    ('_' :: opt.name ∈ reservedTsdlKeywords →
      labelOf mappings opt ∈ [none, some opt.name, some []]) ∧ translateFieldClass opt = true

end Variant

theorem createRelativeFieldRef_ite (isReachedByName : Bool) (path : List FieldPathItem) :
    if createAbsoluteFieldRef path then
      createRelativeFieldRef isReachedByName path = some isReachedByName
    else createRelativeFieldRef isReachedByName path ≠ some true := by
  induction path with
  | nil => simp [createRelativeFieldRef, createAbsoluteFieldRef]
  | cons item items ih =>
    cases item with
    | index => simpa [createRelativeFieldRef, createAbsoluteFieldRef] using ih
    | _ => simp [createRelativeFieldRef, createAbsoluteFieldRef]

theorem resolveFieldClass_iff {selector : Option Selector} {fc : SelectorFc} :
    resolveFieldClass selector = some (some fc) ↔
      ∃ sel ∈ selector, (∀ item ∈ sel.path, item = .index) ∧ sel.fc = fc := by
  cases selector with
  | none => simp [resolveFieldClass]
  | some sel =>
    have habsolute : createAbsoluteFieldRef sel.path = true ↔ ∀ item ∈ sel.path, item = .index := by
      simp [createAbsoluteFieldRef]
    simp only [resolveFieldClass, Option.mem_some_iff, exists_eq_left', ← habsolute]
    have hrelative := createRelativeFieldRef_ite sel.isReachedByName sel.path
    cases hpath : createAbsoluteFieldRef sel.path <;> grind

theorem compareRangeSets_eq_isPerm {rangeSetA rangeSetB : RangeSet}
    (hnodup : rangeSetA.ranges.Nodup)
    (hsame : rangeSetA.addr = rangeSetB.addr → rangeSetA.ranges = rangeSetB.ranges) :
    compareRangeSets rangeSetA rangeSetB = rangeSetA.ranges.isPerm rangeSetB.ranges := by
  rw [Bool.eq_iff_iff, List.isPerm_iff]
  unfold compareRangeSets
  split_ifs with haddr hlength
  · simp [hsame haddr]
  · simpa using fun h => hlength h.length_eq
  · rw [hasRanges_iff]
    exact ⟨fun h => (hnodup.subperm h).perm_of_length_le (not_not.mp hlength).ge, List.Perm.subset⟩

theorem translateVariantFieldClass_eq_ok {inPacketContext : Bool}
    {translateFieldClass : Opt → Bool} {selector : Option Selector} {opts : List Opt}
    {names : List Name} {tagIsBefore : Bool}
    (h : translateVariantFieldClass inPacketContext translateFieldClass selector opts =
      .ok (names, tagIsBefore)) :
    ∃ tgtFc, resolveFieldClass selector = some tgtFc ∧
      names = (firstPass (tgtFc.elim [] SelectorFc.mappings) (isTagBefore opts.length tgtFc) opts).1 ∧
      ∀ p ∈ names.zip opts, (curPathStackPush inPacketContext false p.1).isSome = true ∧
        translateFieldClass p.2 = true := by
  unfold translateVariantFieldClass at h
  split at h
  · cases h
  · rename_i tgtFc htgt
    dsimp only at h
    split_ifs at h with hall
    cases h
    refine ⟨tgtFc, htgt, rfl, fun p hp => ?_⟩
    simpa using List.all_eq_true.mp hall p hp

theorem enumeration_of_nil_not_mem {mappings : List Mapping} {opts : List Opt} (hne : opts ≠ [])
    {tgtFc : Option SelectorFc} (h : [] ∉ (firstPass mappings (isTagBefore opts.length tgtFc) opts).1) :
    ∃ mappings, tgtFc = some (.enumeration mappings) ∧ mappings.length = opts.length := by
  have htag : isTagBefore opts.length tgtFc = false := by
    by_contra htag
    rw [Bool.not_eq_false] at htag
    obtain ⟨opt, opts, rfl⟩ := List.exists_cons_of_ne_nil hne
    rw [htag, firstPass_true] at h
    simp at h
  unfold isTagBefore at htag
  split at htag
  · rename_i mappings
    exact ⟨mappings, rfl, by simpa using htag⟩
  · cases htag

namespace Variant

variable {v : Variant} {inPacketContext : Bool} {translateFieldClass : Opt → Bool}
variable {mappings : List Mapping} {sel : Selector} {opt : Opt}

theorem mappingLabel_eq (v : Variant) (hopt : opt ∈ v.opts) (hsel : sel ∈ v.selector)
    (hfc : sel.fc = .enumeration mappings) : mappingLabel mappings opt = labelOf mappings opt := by
  rw [mappingLabel, labelOf, List.find?_congr fun mapping hmapping => ?_]
  refine compareRangeSets_eq_isPerm (v.ranges_nodup opt hopt) ?_
  exact v.ranges_eq opt hopt sel hsel mapping (by rwa [hfc])

theorem Translates.fits (h : v.Translates inPacketContext translateFieldClass) :
    ∃ mappings, v.SelectorFits mappings ∧
      v.OptsFit inPacketContext translateFieldClass mappings := by
  obtain ⟨names, tagIsBefore, htranslate, -, hnames, -⟩ := h
  obtain ⟨tgtFc, htgt, hfirst, hpush⟩ := translateVariantFieldClass_eq_ok htranslate
  have hnil : [] ∉ names := fun hmem => (hnames [] hmem).1 rfl
  obtain ⟨mappings, rfl, hlength⟩ := enumeration_of_nil_not_mem v.opts_ne_nil (hfirst ▸ hnil)
  obtain ⟨sel, hsel, hpath, hfc⟩ := resolveFieldClass_iff.mp htgt
  have htag : isTagBefore v.opts.length (some (.enumeration mappings)) = false := by
    simp [isTagBefore, hlength]
  rw [htag] at hfirst
  have hfound := found_of_nil_not_mem (hfirst ▸ hnil)
  rw [(firstPass_of_found hfound).1] at hfirst
  refine ⟨mappings, ⟨sel, hsel, hpath, hfc, hlength, fun opt hopt => ?_⟩, fun opt hopt => ?_⟩
  · rw [← v.mappingLabel_eq (List.mem_of_mem_dropLast hopt) hsel hfc]
    exact (found_iff mappings opt).mp (hfound opt hopt)
  · have hzip : (foundName mappings opt, opt) ∈ names.zip v.opts := by
      rw [hfirst, zip_foundName]
      exact List.mem_map_of_mem hopt
    obtain ⟨hpush, htranslate⟩ := hpush _ hzip
    rw [push_foundName_iff (v.isIdentifier_name opt hopt), v.mappingLabel_eq hopt hsel hfc] at hpush
    exact ⟨hpush.1, hpush.2, htranslate⟩

theorem SelectorFits.translates (h : v.SelectorFits mappings)
    (hopts : v.OptsFit inPacketContext translateFieldClass mappings) :
    v.Translates inPacketContext translateFieldClass := by
  obtain ⟨sel, hsel, hpath, hfc, hlength, hlabels⟩ := h
  have hfound : ∀ opt ∈ v.opts.dropLast, Found mappings opt := by
    intro opt hopt
    rw [found_iff, v.mappingLabel_eq (List.mem_of_mem_dropLast hopt) hsel hfc]
    exact hlabels opt hopt
  have hpush : ∀ opt ∈ v.opts,
      (curPathStackPush inPacketContext false (foundName mappings opt)).isSome = true := by
    intro opt hopt
    obtain ⟨hreserved, hkeyword, -⟩ := hopts opt hopt
    rw [push_foundName_iff (v.isIdentifier_name opt hopt), v.mappingLabel_eq hopt hsel hfc]
    exact ⟨hreserved, hkeyword⟩
  obtain ⟨hnames, hkept⟩ := firstPass_of_found hfound
  have htranslate :
      translateVariantFieldClass inPacketContext translateFieldClass v.selector v.opts =
        .ok (v.opts.map (foundName mappings), (firstPass mappings false v.opts).2 ||
          !decide (v.opts.map (foundName mappings)).Nodup) := by
    have htag : isTagBefore v.opts.length (some (.enumeration mappings)) = false := by
      simp [isTagBefore, hlength]
    simp only [translateVariantFieldClass, resolveFieldClass_iff.mpr ⟨sel, hsel, hpath, hfc⟩, htag,
      Option.elim_some, SelectorFc.mappings, hnames]
    refine if_pos (List.all_eq_true.mpr fun p hp => ?_)
    rw [zip_foundName, List.mem_map] at hp
    obtain ⟨opt, hopt, rfl⟩ := hp
    rw [hpush opt hopt, (hopts opt hopt).2.2, Bool.and_true]
  refine ⟨_, _, htranslate, ?_, fun name hname => ?_, fun hfalse => ⟨sel, hsel, ?_⟩⟩
  · have hdistinct := List.pairwise_map.mp v.names_nodup
    exact List.pairwise_map.mpr (hdistinct.imp fun hne heq => hne (name_eq_of_foundName_eq heq))
  · obtain ⟨opt, hopt, rfl⟩ := List.mem_map.mp hname
    have hvalid := (push_iff.mp (hpush opt hopt)).2
    refine ⟨fun hnil => ?_, hvalid⟩
    rw [hnil] at hvalid
    revert hvalid
    decide
  · rw [Bool.or_eq_false_iff] at hfalse
    rw [List.forall₂_map_right_iff, List.forall₂_same]
    intro opt hopt
    rw [hfc, SelectorFc.mappings, ← v.mappingLabel_eq hopt hsel hfc]
    exact (hkept hfalse.1 opt hopt).mappingLabel_eq

/-- The translation does what it should exactly if the selector is an enumeration out of arrays and
optional fields with as many mappings as options which has the names of the options but possibly the
last one, and their names and field classes are accepted. -/
theorem translates_iff (v : Variant) (inPacketContext : Bool) (translateFieldClass : Opt → Bool) :
    v.Translates inPacketContext translateFieldClass ↔ ∃ mappings, v.SelectorFits mappings ∧
      v.OptsFit inPacketContext translateFieldClass mappings :=
  ⟨Translates.fits, fun h => h.elim fun _ hfits => hfits.1.translates hfits.2⟩

end Variant

/-- The option `int` is protected in the selector. -/
def protectedOption : Variant where
  opts := [⟨"int".toList, ⟨0, [⟨0, 1⟩, ⟨4, 4⟩]⟩⟩, ⟨"len".toList, ⟨1, [⟨2, 3⟩]⟩⟩]
  selector := some ⟨[.index, .index], true, false, .enumeration
    [⟨"len".toList, ⟨2, [⟨2, 3⟩]⟩⟩, ⟨"_int".toList, ⟨3, [⟨4, 4⟩, ⟨0, 1⟩]⟩⟩]⟩
  opts_ne_nil := by simp
  names_nodup := by decide
  isIdentifier_name := by decide
  ranges_nodup := by decide
  ranges_eq := by decide

theorem translates_iff_protectedOption : protectedOption.Translates true fun _ => true := by
  refine (protectedOption.translates_iff true fun _ => true).mpr ⟨_, ⟨_, rfl, ?_, rfl, rfl, ?_⟩, ?_⟩
  · decide
  · intro opt hopt
    obtain rfl := List.mem_singleton.mp hopt
    exact ⟨"_int".toList, .inl rfl, by decide⟩
  · unfold Variant.OptsFit
    decide +kernel

/-- The selector has this label for the option. -/
def oneOption (name label : Name) (hname : isIdentifier name = true) (path : List FieldPathItem) :
    Variant where
  opts := [⟨name, ⟨0, [⟨1, 1⟩]⟩⟩]
  selector := some ⟨path, true, true, .enumeration [⟨label, ⟨1, [⟨1, 1⟩]⟩⟩]⟩
  opts_ne_nil := by simp
  names_nodup := by simp
  isIdentifier_name := by simpa using hname
  ranges_nodup := by simp
  ranges_eq := by simp [SelectorFc.mappings]

def boolOption : Variant := oneOption "Bool".toList "_Bool".toList (by decide) [.index]

def withoutSelector : Variant :=
  { boolOption with
    selector := none
    ranges_eq := by simp }

/-- The variant and its selector are members of the elements of an array. -/
def inArray : Variant :=
  oneOption ['A'] ['A'] (by decide) [.index, .currentArrayElement, .index]

/-- The name of the option of a variant without a selector remains empty; a name which is a keyword
once protected fails too, and a selector in the same array aborts. -/
theorem translate_fails :
    ¬ withoutSelector.Translates false (fun _ => true) ∧
      ¬ boolOption.Translates false (fun _ => true) ∧
      translateVariantFieldClass false (fun _ => true) inArray.selector inArray.opts =
        .error .aborted := by
  have hfails {v : Variant} (h : translateVariantFieldClass false (fun _ => true) v.selector
      v.opts = .error .failed) : ¬ v.Translates false fun _ => true := by
    rintro ⟨names, tagIsBefore, htranslate, -⟩
    cases h.symm.trans htranslate
  exact ⟨hfails rfl, hfails rfl, rfl⟩

end Babeltrace.SinkVariant
