import Babeltrace.MetadataFc
import Babeltrace.RelativePath

/-!
# Normalization of the field locations of a scope

`normalizeFieldLocs()` (`metadata/json/normalize-field-locs.cpp`) makes the relative field locations
of a scope absolute. Its first pass also removes a leading parent item when another one follows it,
so that only the parity of the number of leading parent items counts.
-/
namespace Babeltrace.Metadata
open ItemSeq RelativePath

/-- An iteration of the first pass of `Normalizer::_normalizeFieldLoc()` -/
def addItem (retItems : List (Option String)) : Option String → List (Option String)
  | some name => retItems ++ [some name]
  | none => if retItems = [] then retItems ++ [none] else retItems.dropLast

/-- The first pass of `Normalizer::_normalizeFieldLoc()` -/
def removeNonLeadingParents (items : List (Option String)) : List (Option String) :=
  items.foldl addItem []

/-- The loop of `Normalizer::_normalizeFieldLoc()` over the leading parent items -/
def removeLeadingParents :
    List String → List (Option String) → Except Err (List String × List (Option String))
  | memberNames, none :: items =>
    if memberNames = [] then
      .error (.causes ["Invalid field location: too many \"parent\" path items."])
    else removeLeadingParents memberNames.dropLast items
  | memberNames, items => .ok (memberNames, items)

def normalizeFieldLoc (scope : Scope) (memberNames : List String) (fieldLoc : FieldLoc) :
    Except Err FieldLoc :=
  if fieldLoc.origin.isSome then .ok fieldLoc
  else if memberNames = [] then .error (.abort "!_mMemberNames.empty()")
  else do
    let (names, items) ←
      removeLeadingParents memberNames.dropLast (removeNonLeadingParents fieldLoc.items)
    pure { origin := some scope, items := names.map some ++ items }

mutual

/-- The `visit()` methods of `Normalizer` -/
def normalize (scope : Scope) (memberNames : List String) : Fc → Except Err Fc
  | .scalar fc mappings => .ok (.scalar fc mappings)
  | .strBlob fc => .ok (.strBlob fc)
  | .dynLenStr encoding loc => do
    pure (.dynLenStr encoding (← normalizeFieldLoc scope memberNames loc))
  | .dynLenBlob loc => do pure (.dynLenBlob (← normalizeFieldLoc scope memberNames loc))
  | .staticLenArray align len elemFc => do
    let elemFc ← appendCause "Invalid element field class of array field class."
      (normalize scope memberNames elemFc)
    pure (.staticLenArray align len elemFc)
  | .dynLenArray align loc elemFc => do
    let loc ← normalizeFieldLoc scope memberNames loc
    let elemFc ← appendCause "Invalid element field class of array field class."
      (normalize scope memberNames elemFc)
    pure (.dynLenArray align loc elemFc)
  | .struct align members => do
    pure (.struct align (← normalizeMembers scope memberNames members))
  | .optional sel loc fc => do
    let loc ← normalizeFieldLoc scope memberNames loc
    let fc ← appendCause "Invalid field class of optional field class."
      (normalize scope memberNames fc)
    pure (.optional sel loc fc)
  | .variant isSigned loc opts => do
    let loc ← normalizeFieldLoc scope memberNames loc
    pure (.variant isSigned loc (← normalizeOpts scope memberNames opts))

def normalizeMembers (scope : Scope) (memberNames : List String) :
    List (String × Fc) → Except Err (List (String × Fc))
  | [] => .ok []
  | (name, fc) :: members => do
    let fc ← appendCause "Invalid structure field member class."
      (normalize scope (memberNames ++ [name]) fc)
    let members ← normalizeMembers scope memberNames members
    pure ((name, fc) :: members)

def normalizeOpts (scope : Scope) (memberNames : List String) :
    List (Ranges × Fc) → Except Err (List (Ranges × Fc))
  | [] => .ok []
  | (ranges, fc) :: opts => do
    let fc ← appendCause "Invalid variant field class option." (normalize scope memberNames fc)
    let opts ← normalizeOpts scope memberNames opts
    pure ((ranges, fc) :: opts)

end

def normalizeFieldLocs (scope : Scope) (scopeFc : Fc) : Except Err Fc := normalize scope [] scopeFc

/-! ## Expected field locations -/

/-- The names of the members which lead to a dependent field class, and its field location -/
structure Site where
  memberNames : List String
  loc : FieldLoc
  deriving DecidableEq, Repr

mutual

def Fc.sites (memberNames : List String) : Fc → List Site
  | .scalar _ _ | .strBlob _ => []
  | .dynLenStr _ loc | .dynLenBlob loc => [⟨memberNames, loc⟩]
  | .staticLenArray _ _ elemFc => elemFc.sites memberNames
  | .dynLenArray _ loc elemFc => ⟨memberNames, loc⟩ :: elemFc.sites memberNames
  | .struct _ members => membersSites memberNames members
  | .optional _ loc fc => ⟨memberNames, loc⟩ :: fc.sites memberNames
  | .variant _ loc opts => ⟨memberNames, loc⟩ :: optsSites memberNames opts

def membersSites (memberNames : List String) : List (String × Fc) → List Site
  | [] => []
  | (name, fc) :: members => fc.sites (memberNames ++ [name]) ++ membersSites memberNames members

def optsSites (memberNames : List String) : List (Ranges × Fc) → List Site
  | [] => []
  | (_, fc) :: opts => fc.sites memberNames ++ optsSites memberNames opts

end

mutual

def Fc.replaceLocs (f : Site → Option FieldLoc) (memberNames : List String) : Fc → Option Fc
  | .scalar fc mappings => some (.scalar fc mappings)
  | .strBlob fc => some (.strBlob fc)
  | .dynLenStr encoding loc => (f ⟨memberNames, loc⟩).map (.dynLenStr encoding)
  | .dynLenBlob loc => (f ⟨memberNames, loc⟩).map .dynLenBlob
  | .staticLenArray align len elemFc =>
    (elemFc.replaceLocs f memberNames).map (.staticLenArray align len)
  | .dynLenArray align loc elemFc =>
    (f ⟨memberNames, loc⟩).bind fun loc =>
      (elemFc.replaceLocs f memberNames).map (.dynLenArray align loc)
  | .struct align members => (membersReplaceLocs f memberNames members).map (.struct align)
  | .optional sel loc fc =>
    (f ⟨memberNames, loc⟩).bind fun loc => (fc.replaceLocs f memberNames).map (.optional sel loc)
  | .variant isSigned loc opts =>
    (f ⟨memberNames, loc⟩).bind fun loc =>
      (optsReplaceLocs f memberNames opts).map (.variant isSigned loc)

def membersReplaceLocs (f : Site → Option FieldLoc) (memberNames : List String) :
    List (String × Fc) → Option (List (String × Fc))
  | [] => some []
  | (name, fc) :: members =>
    (fc.replaceLocs f (memberNames ++ [name])).bind fun fc =>
      (membersReplaceLocs f memberNames members).map ((name, fc) :: ·)

def optsReplaceLocs (f : Site → Option FieldLoc) (memberNames : List String) :
    List (Ranges × Fc) → Option (List (Ranges × Fc))
  | [] => some []
  | (ranges, fc) :: opts =>
    (fc.replaceLocs f memberNames).bind fun fc =>
      (optsReplaceLocs f memberNames opts).map ((ranges, fc) :: ·)

end

/-- From the structure field class of the member which contains the dependent field class -/
def Site.resolve (scope : Scope) (site : Site) : Option FieldLoc :=
  if site.loc.origin.isSome then some site.loc
  else (RelativePath.resolve site.memberNames.dropLast site.loc.items).map fun names =>
    { origin := some scope, items := names.map some }

/-- The parent items which no earlier name of the location cancels -/
def Site.excess (site : Site) : ℕ :=
  if site.loc.origin.isSome then 0 else RelativePath.excess site.loc.items

/-! ## One field location -/

/-- The parent items are counted modulo two. -/
def parityItems (n : Normal String) : List (Option String) :=
  (if n.climb % 2 = 1 then [none] else []) ++ n.names.map some

theorem addItem_parityItems (n : Normal String) (item : Option String) :
    addItem (parityItems n) item = parityItems (n.add item) := by
  cases item with
  | some a =>
    rw [Normal.add_some]
    simp only [addItem, parityItems, List.map_append, List.append_assoc]
    rfl
  | none =>
    by_cases hnames : n.names = []
    · rw [Normal.add_none_of_eq_nil hnames]
      -- A parent item cancels a leading one.
      by_cases hodd : n.climb % 2 = 1
      · have heven : ¬ (n.climb + 1) % 2 = 1 := by omega
        simp [addItem, parityItems, hnames, hodd, heven]
      · have hodd' : (n.climb + 1) % 2 = 1 := by omega
        simp [addItem, parityItems, hnames, hodd, hodd']
    · rw [Normal.add_none_of_ne_nil hnames]
      simp [addItem, parityItems, hnames, List.dropLast_append_of_ne_nil]

theorem removeNonLeadingParents_eq (items : List (Option String)) :
    removeNonLeadingParents items = parityItems (normal items) := by
  unfold removeNonLeadingParents normal
  rw [show ([] : List (Option String)) = parityItems ⟨0, []⟩ from rfl]
  generalize (⟨0, []⟩ : Normal String) = n
  induction items generalizing n with
  | nil => rfl
  | cons item items ih =>
    rw [List.foldl_cons, List.foldl_cons, addItem_parityItems]
    exact ih (n.add item)

theorem removeLeadingParents_names (memberNames names : List String) :
    removeLeadingParents memberNames (names.map some) = .ok (memberNames, names.map some) := by
  cases names with
  | nil => rfl
  | cons name names => rfl

variable {scope : Scope} {memberNames : List String} {site : Site} {α β γ : Type} {x : Option α}
  {y : Option β} {f g : Site → Option FieldLoc}

theorem normalizeFieldLoc_toOption {loc : FieldLoc} (hnames : memberNames ≠ [])
    (hloc : loc.origin.isSome = false) :
    (normalizeFieldLoc scope memberNames loc).toOption =
      if (normal loc.items).climb % 2 = 1 ∧ memberNames.dropLast = [] then none
      else some { origin := some scope, items := (memberNames.dropLast.take
        (memberNames.dropLast.length - (normal loc.items).climb % 2) ++
          (normal loc.items).names).map some } := by
  simp only [normalizeFieldLoc, hloc, Bool.false_eq_true, if_false, hnames,
    removeNonLeadingParents_eq]
  generalize memberNames.dropLast = base
  by_cases hodd : (normal loc.items).climb % 2 = 1
  · by_cases hbase : base = []
    · simp [parityItems, hodd, hbase, removeLeadingParents]
      rfl
    · simp [parityItems, hodd, hbase, removeLeadingParents, removeLeadingParents_names,
        List.dropLast_eq_take]
      rfl
  · have heven : (normal loc.items).climb % 2 = 0 := by omega
    simp [parityItems, heven, removeLeadingParents_names]
    rfl

theorem Site.resolve_eq (hloc : site.loc.origin.isSome = false) :
    site.resolve scope =
      if (normal site.loc.items).climb ≤ site.memberNames.dropLast.length then
        some { origin := some scope, items := (site.memberNames.dropLast.take
          (site.memberNames.dropLast.length - (normal site.loc.items).climb) ++
            (normal site.loc.items).names).map some }
      else none := by
  simp only [Site.resolve, hloc, Bool.false_eq_true, if_false, resolve_eq_from, Normal.from]
  split <;> rfl

theorem Site.normalize_eq_resolve_iff (hnames : site.memberNames ≠ [])
    (herr : ¬ (site.excess % 2 = 1 ∧ site.memberNames.dropLast = [])) :
    (normalizeFieldLoc scope site.memberNames site.loc).toOption = site.resolve scope ↔
      site.excess ≤ 1 := by
  by_cases habs : site.loc.origin.isSome = true
  · simp [normalizeFieldLoc, Site.resolve, Site.excess, habs, Except.toOption]
  have hloc : site.loc.origin.isSome = false := by simpa using habs
  have hexcess : site.excess = (normal site.loc.items).climb := by
    simp [Site.excess, hloc, RelativePath.excess]
  rw [hexcess] at herr ⊢
  rw [normalizeFieldLoc_toOption hnames hloc, Site.resolve_eq hloc, if_neg herr]
  generalize site.memberNames.dropLast = base at herr ⊢
  generalize (normal site.loc.items).climb = k at herr ⊢
  generalize (normal site.loc.items).names = names
  constructor
  · intro h
    by_cases hle : k ≤ base.length
    · -- The two paths have different lengths unless the numbers of removed names are equal.
      rw [if_pos hle, Option.some.injEq, FieldLoc.mk.injEq] at h
      have hlen := congrArg List.length h.2
      simp only [List.length_map, List.length_append, List.length_take] at hlen
      omega
    · rw [if_neg hle] at h
      cases h
  · intro hk
    by_cases h0 : k = 0
    · simp [h0]
    · have h1 : k = 1 := by omega
      have hbase : base.length ≠ 0 := fun h => herr ⟨by omega, List.length_eq_zero_iff.mp h⟩
      rw [if_pos (by omega), h1]

theorem Site.normalize_eq_none_iff (hnames : site.memberNames ≠ []) :
    (normalizeFieldLoc scope site.memberNames site.loc).toOption = none ↔
      site.excess % 2 = 1 ∧ site.memberNames.dropLast = [] := by
  by_cases habs : site.loc.origin.isSome = true
  · simp [normalizeFieldLoc, Site.excess, habs, Except.toOption]
  have hloc : site.loc.origin.isSome = false := by simpa using habs
  rw [normalizeFieldLoc_toOption hnames hloc]
  simp [Site.excess, hloc, RelativePath.excess]

theorem Site.resolve_eq_none (hodd : site.excess % 2 = 1) (hbase : site.memberNames.dropLast = []) :
    site.resolve scope = none := by
  by_cases habs : site.loc.origin.isSome = true
  · simp [Site.excess, habs] at hodd
  have hloc : site.loc.origin.isSome = false := by simpa using habs
  simp only [Site.excess, hloc, Bool.false_eq_true, if_false, RelativePath.excess] at hodd
  rw [Site.resolve_eq hloc, hbase, if_neg (by simp only [List.length_nil]; omega)]

/-! ## All the field locations of a scope -/

theorem toOption_bind (x : Except Err α) (f : α → Except Err β) :
    (x >>= f).toOption = x.toOption.bind fun a => (f a).toOption := by
  cases x <;> rfl

theorem toOption_pure (a : α) : (pure a : Except Err α).toOption = some a := rfl

theorem bind_map_eq_none_iff {f : α → β → γ} :
    (x.bind fun a => y.map (f a)) = none ↔ x = none ∨ y = none := by
  cases x <;> cases y <;> simp

theorem bind_map_eq_iff {f : α → β → γ} (hf : ∀ a b a' b', f a b = f a' b' → a = a' ∧ b = b')
    {x x' : Option α} {y y' : Option β} (hx : x ≠ none) (hy : y ≠ none) :
    (x.bind fun a => y.map (f a)) = (x'.bind fun a => y'.map (f a)) ↔ x = x' ∧ y = y' := by
  obtain ⟨a, rfl⟩ := Option.ne_none_iff_exists'.mp hx
  obtain ⟨b, rfl⟩ := Option.ne_none_iff_exists'.mp hy
  constructor
  · intro h
    cases x' with
    | none => cases h
    | some a' =>
      cases y' with
      | none => cases h
      | some b' =>
        obtain ⟨rfl, rfl⟩ := hf a b a' b' (by simpa using h)
        exact ⟨rfl, rfl⟩
  · rintro ⟨rfl, rfl⟩
    rfl

theorem exists_mem_append_iff {p : α → Prop} {xs ys : List α} :
    (∃ x ∈ xs ++ ys, p x) ↔ (∃ x ∈ xs, p x) ∨ ∃ x ∈ ys, p x := by
  simp only [List.mem_append, or_and_right, exists_or]

def Site.normalize (scope : Scope) (site : Site) : Option FieldLoc :=
  (normalizeFieldLoc scope site.memberNames site.loc).toOption

mutual

theorem normalize_toOption (scope : Scope) (memberNames : List String) (fc : Fc) :
    (normalize scope memberNames fc).toOption =
      fc.replaceLocs (Site.normalize scope) memberNames := by
  cases fc with
  | scalar fc mappings => rfl
  | strBlob fc => rfl
  | dynLenStr _ loc | dynLenBlob loc =>
    simp only [normalize, toOption_bind, toOption_pure, Fc.replaceLocs, Site.normalize,
      Option.map_eq_bind, Function.comp_def]
  | staticLenArray align len elemFc =>
    simp only [normalize, toOption_bind, toOption_pure, appendCause_toOption, Fc.replaceLocs,
      normalize_toOption scope memberNames elemFc, Option.map_eq_bind, Function.comp_def]
  | dynLenArray _ loc elemFc | optional _ loc elemFc =>
    simp only [normalize, toOption_bind, toOption_pure, appendCause_toOption, Fc.replaceLocs,
      normalize_toOption scope memberNames elemFc, Site.normalize, Option.map_eq_bind,
      Function.comp_def]
  | struct align members =>
    simp only [normalize, toOption_bind, toOption_pure, Fc.replaceLocs,
      normalizeMembers_toOption scope memberNames members, Option.map_eq_bind, Function.comp_def]
  | variant isSigned loc opts =>
    simp only [normalize, toOption_bind, toOption_pure, Fc.replaceLocs,
      normalizeOpts_toOption scope memberNames opts, Site.normalize, Option.map_eq_bind,
      Function.comp_def]

theorem normalizeMembers_toOption (scope : Scope) (memberNames : List String)
    (members : List (String × Fc)) :
    (normalizeMembers scope memberNames members).toOption =
      membersReplaceLocs (Site.normalize scope) memberNames members := by
  match members with
  | [] => rfl
  | (name, fc) :: members =>
    simp only [normalizeMembers, toOption_bind, toOption_pure, appendCause_toOption,
      membersReplaceLocs, normalize_toOption scope (memberNames ++ [name]) fc,
      normalizeMembers_toOption scope memberNames members, Option.map_eq_bind, Function.comp_def]

theorem normalizeOpts_toOption (scope : Scope) (memberNames : List String)
    (opts : List (Ranges × Fc)) :
    (normalizeOpts scope memberNames opts).toOption =
      optsReplaceLocs (Site.normalize scope) memberNames opts := by
  match opts with
  | [] => rfl
  | (ranges, fc) :: opts =>
    simp only [normalizeOpts, toOption_bind, toOption_pure, appendCause_toOption,
      optsReplaceLocs, normalize_toOption scope memberNames fc,
      normalizeOpts_toOption scope memberNames opts, Option.map_eq_bind, Function.comp_def]

end

mutual

theorem Fc.replaceLocs_eq_none_iff (f : Site → Option FieldLoc) (memberNames : List String)
    (fc : Fc) :
    fc.replaceLocs f memberNames = none ↔ ∃ site ∈ fc.sites memberNames, f site = none := by
  cases fc with
  | scalar fc mappings => simp [Fc.replaceLocs, Fc.sites]
  | strBlob fc => simp [Fc.replaceLocs, Fc.sites]
  | dynLenStr encoding loc => simp [Fc.replaceLocs, Fc.sites]
  | dynLenBlob loc => simp [Fc.replaceLocs, Fc.sites]
  | staticLenArray align len elemFc =>
    simp [Fc.replaceLocs, Fc.sites, elemFc.replaceLocs_eq_none_iff f memberNames]
  | dynLenArray align loc elemFc =>
    simp only [Fc.replaceLocs, Fc.sites, bind_map_eq_none_iff,
      elemFc.replaceLocs_eq_none_iff f memberNames, List.exists_mem_cons_iff]
  | struct align members =>
    simp [Fc.replaceLocs, Fc.sites, membersReplaceLocs_eq_none_iff f memberNames members]
  | optional sel loc fc =>
    simp only [Fc.replaceLocs, Fc.sites, bind_map_eq_none_iff,
      fc.replaceLocs_eq_none_iff f memberNames, List.exists_mem_cons_iff]
  | variant isSigned loc opts =>
    simp only [Fc.replaceLocs, Fc.sites, bind_map_eq_none_iff,
      optsReplaceLocs_eq_none_iff f memberNames opts, List.exists_mem_cons_iff]

theorem membersReplaceLocs_eq_none_iff (f : Site → Option FieldLoc) (memberNames : List String)
    (members : List (String × Fc)) :
    membersReplaceLocs f memberNames members = none ↔
      ∃ site ∈ membersSites memberNames members, f site = none := by
  match members with
  | [] => simp [membersReplaceLocs, membersSites]
  | (name, fc) :: members =>
    simp only [membersReplaceLocs, membersSites, bind_map_eq_none_iff,
      fc.replaceLocs_eq_none_iff f (memberNames ++ [name]),
      membersReplaceLocs_eq_none_iff f memberNames members, exists_mem_append_iff]

theorem optsReplaceLocs_eq_none_iff (f : Site → Option FieldLoc) (memberNames : List String)
    (opts : List (Ranges × Fc)) :
    optsReplaceLocs f memberNames opts = none ↔
      ∃ site ∈ optsSites memberNames opts, f site = none := by
  match opts with
  | [] => simp [optsReplaceLocs, optsSites]
  | (ranges, fc) :: opts =>
    simp only [optsReplaceLocs, optsSites, bind_map_eq_none_iff,
      fc.replaceLocs_eq_none_iff f memberNames,
      optsReplaceLocs_eq_none_iff f memberNames opts, exists_mem_append_iff]

end

mutual

theorem Fc.replaceLocs_eq_iff {f g : Site → Option FieldLoc} (memberNames : List String) (fc : Fc)
    (hf : fc.replaceLocs f memberNames ≠ none) :
    fc.replaceLocs f memberNames = fc.replaceLocs g memberNames ↔
      ∀ site ∈ fc.sites memberNames, f site = g site := by
  cases fc with
  | scalar fc mappings => simp [Fc.replaceLocs, Fc.sites]
  | strBlob fc => simp [Fc.replaceLocs, Fc.sites]
  | dynLenStr encoding loc =>
    simp [Fc.replaceLocs, Fc.sites, (Option.map_injective (fun _ _ h => by cases h; rfl :
      Function.Injective (Fc.dynLenStr encoding))).eq_iff]
  | dynLenBlob loc =>
    simp [Fc.replaceLocs, Fc.sites, (Option.map_injective (fun _ _ h => by cases h; rfl :
      Function.Injective Fc.dynLenBlob)).eq_iff]
  | staticLenArray align len elemFc =>
    have hinj : Function.Injective (Fc.staticLenArray align len) := fun _ _ h => by cases h; rfl
    rw [Fc.replaceLocs, ne_eq, Option.map_eq_none_iff] at hf
    rw [Fc.replaceLocs, Fc.replaceLocs, (Option.map_injective hinj).eq_iff, Fc.sites,
      elemFc.replaceLocs_eq_iff memberNames hf]
  | dynLenArray _ loc elemFc | optional _ loc elemFc =>
    rw [Fc.replaceLocs, ne_eq, bind_map_eq_none_iff, not_or] at hf
    rw [Fc.replaceLocs, Fc.replaceLocs,
      bind_map_eq_iff (fun _ _ _ _ h => by cases h; simp) hf.1 hf.2,
      elemFc.replaceLocs_eq_iff memberNames hf.2, Fc.sites, List.forall_mem_cons]
  | struct align members =>
    have hinj : Function.Injective (Fc.struct align) := fun _ _ h => by cases h; rfl
    rw [Fc.replaceLocs, ne_eq, Option.map_eq_none_iff] at hf
    rw [Fc.replaceLocs, Fc.replaceLocs, (Option.map_injective hinj).eq_iff, Fc.sites,
      membersReplaceLocs_eq_iff memberNames members hf]
  | variant isSigned loc opts =>
    rw [Fc.replaceLocs, ne_eq, bind_map_eq_none_iff, not_or] at hf
    rw [Fc.replaceLocs, Fc.replaceLocs,
      bind_map_eq_iff (fun _ _ _ _ h => by cases h; simp) hf.1 hf.2,
      optsReplaceLocs_eq_iff memberNames opts hf.2, Fc.sites, List.forall_mem_cons]

theorem membersReplaceLocs_eq_iff {f g : Site → Option FieldLoc} (memberNames : List String)
    (members : List (String × Fc)) (hf : membersReplaceLocs f memberNames members ≠ none) :
    membersReplaceLocs f memberNames members = membersReplaceLocs g memberNames members ↔
      ∀ site ∈ membersSites memberNames members, f site = g site := by
  match members with
  | [] => simp [membersReplaceLocs, membersSites]
  | (name, fc) :: members =>
    rw [membersReplaceLocs, ne_eq, bind_map_eq_none_iff, not_or] at hf
    rw [membersReplaceLocs, membersReplaceLocs,
      bind_map_eq_iff (fun _ _ _ _ h => by cases h; simp) hf.1 hf.2,
      fc.replaceLocs_eq_iff (memberNames ++ [name]) hf.1,
      membersReplaceLocs_eq_iff memberNames members hf.2, membersSites, List.forall_mem_append]

theorem optsReplaceLocs_eq_iff {f g : Site → Option FieldLoc} (memberNames : List String)
    (opts : List (Ranges × Fc)) (hf : optsReplaceLocs f memberNames opts ≠ none) :
    optsReplaceLocs f memberNames opts = optsReplaceLocs g memberNames opts ↔
      ∀ site ∈ optsSites memberNames opts, f site = g site := by
  match opts with
  | [] => simp [optsReplaceLocs, optsSites]
  | (ranges, fc) :: opts =>
    rw [optsReplaceLocs, ne_eq, bind_map_eq_none_iff, not_or] at hf
    rw [optsReplaceLocs, optsReplaceLocs,
      bind_map_eq_iff (fun _ _ _ _ h => by cases h; simp) hf.1 hf.2,
      fc.replaceLocs_eq_iff memberNames hf.1, optsReplaceLocs_eq_iff memberNames opts hf.2,
      optsSites, List.forall_mem_append]

end

mutual

theorem Fc.sites_ne_nil {memberNames : List String} (hnames : memberNames ≠ []) (fc : Fc) :
    ∀ site ∈ fc.sites memberNames, site.memberNames ≠ [] := by
  cases fc with
  | scalar fc mappings => simp [Fc.sites]
  | strBlob fc => simp [Fc.sites]
  | dynLenStr encoding loc => simpa [Fc.sites] using hnames
  | dynLenBlob loc => simpa [Fc.sites] using hnames
  | staticLenArray align len elemFc => exact elemFc.sites_ne_nil hnames
  | dynLenArray align loc elemFc =>
    exact List.forall_mem_cons.mpr ⟨hnames, elemFc.sites_ne_nil hnames⟩
  | struct align members => exact membersSites_ne_nil memberNames members
  | optional sel loc fc => exact List.forall_mem_cons.mpr ⟨hnames, fc.sites_ne_nil hnames⟩
  | variant isSigned loc opts =>
    exact List.forall_mem_cons.mpr ⟨hnames, optsSites_ne_nil hnames opts⟩

theorem membersSites_ne_nil (memberNames : List String) (members : List (String × Fc)) :
    ∀ site ∈ membersSites memberNames members, site.memberNames ≠ [] := by
  match members with
  | [] => simp [membersSites]
  | (name, fc) :: members =>
    exact List.forall_mem_append.mpr
      ⟨fc.sites_ne_nil (by simp), membersSites_ne_nil memberNames members⟩

theorem optsSites_ne_nil {memberNames : List String} (hnames : memberNames ≠ [])
    (opts : List (Ranges × Fc)) :
    ∀ site ∈ optsSites memberNames opts, site.memberNames ≠ [] := by
  match opts with
  | [] => simp [optsSites]
  | (ranges, fc) :: opts =>
    exact List.forall_mem_append.mpr ⟨fc.sites_ne_nil hnames, optsSites_ne_nil hnames opts⟩

end

theorem removeLeadingParents_noAbort (memberNames : List String) (items : List (Option String)) :
    NoAbort (removeLeadingParents memberNames items) := by
  induction items generalizing memberNames with
  | nil => trivial
  | cons item items ih =>
    cases item with
    | some name => trivial
    | none =>
      unfold removeLeadingParents
      split
      · trivial
      · exact ih _

theorem normalizeFieldLoc_noAbort (hnames : memberNames ≠ []) (loc : FieldLoc) :
    NoAbort (normalizeFieldLoc scope memberNames loc) := by
  by_cases habs : loc.origin.isSome = true
  · simp only [normalizeFieldLoc, habs, if_true]
    trivial
  · simp only [normalizeFieldLoc, habs, hnames, if_false]
    exact (removeLeadingParents_noAbort _ _).bind fun _ => .pure _

mutual

theorem normalize_noAbort {scope : Scope} {memberNames : List String} (hnames : memberNames ≠ [])
    (fc : Fc) : NoAbort (normalize scope memberNames fc) := by
  have hloc : ∀ loc, NoAbort (normalizeFieldLoc scope memberNames loc) :=
    normalizeFieldLoc_noAbort hnames
  cases fc with
  | scalar fc mappings => trivial
  | strBlob fc => trivial
  | dynLenStr _ loc | dynLenBlob loc => exact (hloc loc).bind fun _ => .pure _
  | staticLenArray align len elemFc =>
    exact (normalize_noAbort hnames elemFc).appendCause.bind fun _ => .pure _
  | dynLenArray align loc elemFc =>
    exact (hloc loc).bind fun _ =>
      (normalize_noAbort hnames elemFc).appendCause.bind fun _ => .pure _
  | struct align members =>
    exact (normalizeMembers_noAbort scope memberNames members).bind fun _ => .pure _
  | optional sel loc fc =>
    exact (hloc loc).bind fun _ => (normalize_noAbort hnames fc).appendCause.bind fun _ => .pure _
  | variant isSigned loc opts =>
    exact (hloc loc).bind fun _ => (normalizeOpts_noAbort hnames opts).bind fun _ => .pure _

theorem normalizeMembers_noAbort (scope : Scope) (memberNames : List String)
    (members : List (String × Fc)) : NoAbort (normalizeMembers scope memberNames members) := by
  match members with
  | [] => trivial
  | (name, fc) :: members =>
    exact (normalize_noAbort (by simp) fc).appendCause.bind fun _ =>
      (normalizeMembers_noAbort scope memberNames members).bind fun _ => .pure _

theorem normalizeOpts_noAbort {scope : Scope} {memberNames : List String}
    (hnames : memberNames ≠ []) (opts : List (Ranges × Fc)) :
    NoAbort (normalizeOpts scope memberNames opts) := by
  match opts with
  | [] => trivial
  | (ranges, fc) :: opts =>
    exact (normalize_noAbort hnames fc).appendCause.bind fun _ =>
      (normalizeOpts_noAbort hnames opts).bind fun _ => .pure _

end

def resolveFieldLocs (scope : Scope) (scopeFc : Fc) : Option Fc :=
  scopeFc.replaceLocs (Site.resolve scope) []

/-- The normalizer resolves the locations of a scope when each one has at most one parent item in
excess, or when it reports an error, which it does for an odd number of them in a root member. -/
theorem normalizeFieldLocs_eq_resolve_iff (scope : Scope) (align : ℕ)
    (members : List (String × Fc)) :
    NoAbort (normalizeFieldLocs scope (.struct align members)) ∧
    ((normalizeFieldLocs scope (.struct align members)).toOption =
        resolveFieldLocs scope (.struct align members) ↔
      (∀ site ∈ membersSites [] members, site.excess ≤ 1) ∨
        ∃ site ∈ membersSites [] members,
          site.excess % 2 = 1 ∧ site.memberNames.dropLast = []) := by
  refine ⟨(normalizeMembers_noAbort scope [] members).bind fun _ => .pure _, ?_⟩
  have hnames := membersSites_ne_nil [] members
  rw [normalizeFieldLocs, normalize_toOption, resolveFieldLocs]
  by_cases herr : ∃ site ∈ membersSites [] members,
      site.excess % 2 = 1 ∧ site.memberNames.dropLast = []
  · obtain ⟨site, hmem, hodd, hbase⟩ := herr
    have hnormalize : (Fc.struct align members).replaceLocs (Site.normalize scope) [] = none :=
      (Fc.replaceLocs_eq_none_iff _ _ _).mpr
        ⟨site, hmem, (Site.normalize_eq_none_iff (hnames site hmem)).mpr ⟨hodd, hbase⟩⟩
    have hresolve : (Fc.struct align members).replaceLocs (Site.resolve scope) [] = none :=
      (Fc.replaceLocs_eq_none_iff _ _ _).mpr ⟨site, hmem, Site.resolve_eq_none hodd hbase⟩
    rw [hnormalize, hresolve]
    exact ⟨fun _ => .inr ⟨site, hmem, hodd, hbase⟩, fun _ => rfl⟩
  · have hsome : (Fc.struct align members).replaceLocs (Site.normalize scope) [] ≠ none := by
      rw [ne_eq, Fc.replaceLocs_eq_none_iff]
      rintro ⟨site, hmem, hnone⟩
      exact herr ⟨site, hmem, (Site.normalize_eq_none_iff (hnames site hmem)).mp hnone⟩
    rw [Fc.replaceLocs_eq_iff _ _ hsome, or_iff_left herr]
    refine forall₂_congr fun site hmem => ?_
    exact Site.normalize_eq_resolve_iff (hnames site hmem) fun h => herr ⟨site, hmem, h⟩

/-- A dynamic-length string field class `/a/b/c` of which the length is at `../../len` -/
def twoParentsScope : List (String × Fc) :=
  [("len", .scalar (.fixedLen .uInt
      { align := 8, len := 8, byteOrder := .big, bitOrder := .lastToFirst } [] []) []),
    ("a", .struct 8 [("b", .struct 8 [("c", .dynLenStr .utf8
      { origin := none, items := [none, none, some "len"] })])])]

theorem normalizeFieldLocs_drops_parents :
    (normalizeFieldLocs .eventRecordPayload (.struct 8 twoParentsScope)).toOption.map
        (fun fc => (fc.sites []).map Site.loc) =
      some [{ origin := some .eventRecordPayload, items := [some "a", some "b", some "len"] }] ∧
    (resolveFieldLocs .eventRecordPayload (.struct 8 twoParentsScope)).map
        (fun fc => (fc.sites []).map Site.loc) =
      some [{ origin := some .eventRecordPayload, items := [some "len"] }] := by
  decide

end Babeltrace.Metadata
