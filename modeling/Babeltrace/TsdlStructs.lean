import Mathlib

/-!
# TSDL structures

How `sink.ctf.fs` writes a CTF IR field class as TSDL, as the list of its declarations, without
comments, indentation and scalar texts. The loop over the members of a structure and the one over
the options of a variant of which the tag is generated before have the same index.
-/
namespace Babeltrace.Tsdl

/-! ## Field classes and declarations -/

inductive ScalarFc
  | bool
  | bitArray (size : ℕ)
  | int (size : ℕ) (isSigned : Bool)
  | float (size : ℕ)
  | string
  deriving DecidableEq, Repr

/-- `fs_sink_ctf_field_class` -/
inductive Fc
  | scalar (fc : ScalarFc)
  | struct (alignment : ℕ) (members : List (String × Fc))
  | option (tagRef : String) (contentFc : Fc)
  | variant (tagRef : String) (tagIsBefore : Bool) (options : List (String × Fc))
  | array (length : ℕ) (elemFc : Fc)
  | sequence (lengthRef : String) (lengthIsBefore : Bool) (elemFc : Fc)

mutual

/-- A member (or an option) with the lengths which follow its name, or what's generated before a
member -/
inductive Decl
  | member (name : String) (lengths : List (ℕ ⊕ String)) (fc : TsdlFc)
  | length (name : String)
  | optionTag (name : String)
  | variantTag (name : String) (mappings : List (String × ℕ))

inductive TsdlFc
  | scalar (fc : ScalarFc)
  | struct (decls : List Decl) (alignment : Option ℕ)
  | variant (tag : String) (options : List Decl)

end

/-! ## Writer -/

/-- The loop of `append_member()` -/
def Fc.lengths : Fc → List (ℕ ⊕ String)
  | .array length elemFc => .inl length :: elemFc.lengths
  | .sequence lengthRef _ elemFc => .inr lengthRef :: elemFc.lengths
  | _ => []

/-- What remains after the loop of `append_member()` -/
def Fc.elem : Fc → Fc
  | .array _ elemFc => elemFc.elem
  | .sequence _ _ elemFc => elemFc.elem
  | fc => fc

/-- From index `i`: the mappings, and the index after the loop -/
def appendTagMappings : List (String × Fc) → ℕ → List (String × ℕ) × ℕ
  | [], i => ([], i)
  | (name, _) :: options, i =>
    let (mappings, i') := appendTagMappings options (i + 1)
    ((name, i) :: mappings, i')

/-- What `append_struct_field_class_members()` writes before the member at index `i`, and the index
afterwards -/
def appendGenerated (fc : Fc) (i : ℕ) : List Decl × ℕ :=
  match fc with
  | .sequence lengthRef true _ => ([.length lengthRef], i)
  | .option tagRef _ => ([.optionTag tagRef], i)
  | .variant tagRef true options =>
    let (mappings, i) := appendTagMappings options 0
    ([.variantTag tagRef mappings], i)
  | _ => ([], i)

mutual

def appendFieldClass : ℕ → Fc → Option TsdlFc
  | 0, _ => none
  | fuel + 1, fc =>
    match fc with
    | .scalar fc => some (.scalar fc)
    | .struct alignment members => do
      let decls ← appendStructFieldClassMembers fuel members 0
      some (.struct decls (some alignment))
    | .option tagRef contentFc => do
      let content ← appendMember fuel "content" contentFc
      some (.variant tagRef [.member "none" [] (.struct [] none), content])
    | .variant tagRef _ options => do
      let options ← appendOptions fuel options
      some (.variant tagRef options)
    | .array _ _ | .sequence _ _ _ => none

def appendMember : ℕ → String → Fc → Option Decl
  | 0, _, _ => none
  | fuel + 1, name, fc => do
    let elem ← appendFieldClass fuel fc.elem
    some (.member name fc.lengths elem)

/-- The loop of `append_variant_field_class()` -/
def appendOptions : ℕ → List (String × Fc) → Option (List Decl)
  | 0, _ => none
  | _ + 1, [] => some []
  | fuel + 1, (name, fc) :: options => do
    let option ← appendMember fuel name fc
    let options ← appendOptions fuel options
    some (option :: options)

/-- `append_struct_field_class_members()` from index `i` -/
def appendStructFieldClassMembers : ℕ → List (String × Fc) → ℕ → Option (List Decl)
  | 0, _, _ => none
  | fuel + 1, members, i =>
    match members[i]? with
    | none => some []
    | some (name, fc) => do
      let (generated, i) := appendGenerated fc i
      let member ← appendMember fuel name fc
      let decls ← appendStructFieldClassMembers fuel members (i + 1)
      some (generated ++ member :: decls)

end

/-! ## Expected declarations -/

/-- The tag of a variant maps its option `k` to `k`. -/
def Fc.generated : Fc → List Decl
  | .sequence lengthRef true _ => [.length lengthRef]
  | .option tagRef _ => [.optionTag tagRef]
  | .variant tagRef true options =>
    [.variantTag tagRef (options.zipIdx.map fun (opt, k) => (opt.1, k))]
  | _ => []

mutual

/-- The field class of a member of which the field class is `fc` -/
def tsdlFc : Fc → TsdlFc
  | .scalar fc => .scalar fc
  | .struct alignment members => .struct (tsdlMembers members) (some alignment)
  | .option tagRef contentFc =>
    .variant tagRef
      [.member "none" [] (.struct [] none), .member "content" contentFc.lengths (tsdlFc contentFc)]
  | .variant tagRef _ options => .variant tagRef (tsdlOptions options)
  | .array _ elemFc => tsdlFc elemFc
  | .sequence _ _ elemFc => tsdlFc elemFc

def tsdlMembers : List (String × Fc) → List Decl
  | [] => []
  | (name, fc) :: members =>
    fc.generated ++ .member name fc.lengths (tsdlFc fc) :: tsdlMembers members

def tsdlOptions : List (String × Fc) → List Decl
  | [] => []
  | (name, fc) :: options => .member name fc.lengths (tsdlFc fc) :: tsdlOptions options

end

/-! ## When the output is the expected one -/

def nextIndex (fc : Fc) (i : ℕ) : ℕ :=
  match fc with
  | .variant _ true options => options.length + 1
  | _ => i + 1

/-- A variant of which the tag is generated before has as many options as there are members before
it, or at least as many when it's the last member. -/
def InOrder (members : List (String × Fc)) : Prop :=
  ∀ i member, members[i]? = some member →
    nextIndex member.2 i = i + 1 ∨ (i + 1 = members.length ∧ i + 1 ≤ nextIndex member.2 i)

mutual

def Fc.MembersInOrder : Fc → Prop
  | .scalar _ => True
  | .struct _ members => InOrder members ∧ AllInOrder members
  | .option _ contentFc => contentFc.MembersInOrder
  | .variant _ _ options => AllInOrder options
  | .array _ elemFc => elemFc.MembersInOrder
  | .sequence _ _ elemFc => elemFc.MembersInOrder

def AllInOrder : List (String × Fc) → Prop
  | [] => True
  | (_, fc) :: members => fc.MembersInOrder ∧ AllInOrder members

def Fc.DistinctNames : Fc → Prop
  | .scalar _ => True
  | .struct _ members => (members.map Prod.fst).Nodup ∧ AllDistinctNames members
  | .option _ contentFc => contentFc.DistinctNames
  | .variant _ _ options => AllDistinctNames options
  | .array _ elemFc => elemFc.DistinctNames
  | .sequence _ _ elemFc => elemFc.DistinctNames

def AllDistinctNames : List (String × Fc) → Prop
  | [] => True
  | (_, fc) :: members => fc.DistinctNames ∧ AllDistinctNames members

end

theorem appendTagMappings_eq (options : List (String × Fc)) (i : ℕ) :
    appendTagMappings options i =
      ((options.zipIdx i).map (fun (opt, k) => (opt.1, k)), i + options.length) := by
  induction options generalizing i with
  | nil => rfl
  | cons option options ih =>
    rw [appendTagMappings, ih]
    simp only [List.zipIdx_cons, List.map_cons, List.length_cons]
    rw [Nat.add_assoc, Nat.add_comm 1]

theorem appendGenerated_eq (fc : Fc) (i : ℕ) :
    (appendGenerated fc i).1 = fc.generated ∧ (appendGenerated fc i).2 + 1 = nextIndex fc i := by
  unfold appendGenerated Fc.generated nextIndex
  split <;> simp [appendTagMappings_eq]

@[elab_as_elim]
theorem Fc.ind {P : Fc → Prop} (scalar : ∀ fc, P (.scalar fc))
    (struct : ∀ alignment members, (∀ member ∈ members, P member.2) → P (.struct alignment members))
    (option : ∀ tagRef contentFc, P contentFc → P (.option tagRef contentFc))
    (variant : ∀ tagRef tagIsBefore options, (∀ opt ∈ options, P opt.2) →
      P (.variant tagRef tagIsBefore options))
    (array : ∀ length elemFc, P elemFc → P (.array length elemFc))
    (sequence : ∀ lengthRef lengthIsBefore elemFc, P elemFc →
      P (.sequence lengthRef lengthIsBefore elemFc))
    (fc : Fc) : P fc :=
  @Fc.rec P (fun members => ∀ member ∈ members, P member.2) (fun member => P member.2) scalar
    struct option variant array sequence (fun _ h => (by cases h))
    (fun _ _ h hs => List.forall_mem_cons.mpr ⟨h, hs⟩) (fun _ _ h => h) fc

variable {members options : List (String × Fc)} {i fuel fuel' : ℕ} {name : String} {fc : Fc}

theorem allInOrder_iff :
    AllInOrder members ↔ ∀ member ∈ members, member.2.MembersInOrder := by
  induction members with
  | nil => simp [AllInOrder]
  | cons member members ih => rw [AllInOrder, ih, List.forall_mem_cons]

theorem allDistinctNames_iff :
    AllDistinctNames members ↔ ∀ member ∈ members, member.2.DistinctNames := by
  induction members with
  | nil => simp [AllDistinctNames]
  | cons member members ih => rw [AllDistinctNames, ih, List.forall_mem_cons]

/-! ## Steps of the loop over the members -/

theorem appendStructFieldClassMembers_of_none (h : members[i]? = none) (fuel : ℕ) :
    appendStructFieldClassMembers (fuel + 1) members i = some [] := by
  rw [appendStructFieldClassMembers, h]

theorem appendStructFieldClassMembers_eq_some_iff (h : members[i]? = some (name, fc)) (fuel : ℕ)
    (decls : List Decl) :
    appendStructFieldClassMembers (fuel + 1) members i = some decls ↔
      ∃ member rest, appendMember fuel name fc = some member ∧
        appendStructFieldClassMembers fuel members (nextIndex fc i) = some rest ∧
        decls = fc.generated ++ member :: rest := by
  obtain ⟨hgenerated, hnext⟩ := appendGenerated_eq fc i
  rw [appendStructFieldClassMembers, h]
  simp only [Option.bind_eq_bind, Option.bind_eq_some_iff, hgenerated, hnext, Option.some.injEq]
  constructor
  · rintro ⟨member, hmember, rest, hrest, rfl⟩
    exact ⟨member, rest, hmember, hrest, rfl⟩
  · rintro ⟨member, rest, hmember, hrest, rfl⟩
    exact ⟨member, hmember, rest, hrest, rfl⟩

/-! ## Fuel -/

theorem append_succ (fuel : ℕ) :
    (∀ fc out, appendFieldClass fuel fc = some out → appendFieldClass (fuel + 1) fc = some out) ∧
    (∀ name fc out, appendMember fuel name fc = some out →
      appendMember (fuel + 1) name fc = some out) ∧
    (∀ options out, appendOptions fuel options = some out →
      appendOptions (fuel + 1) options = some out) ∧
    ∀ members i out, appendStructFieldClassMembers fuel members i = some out →
      appendStructFieldClassMembers (fuel + 1) members i = some out := by
  induction fuel with
  | zero => exact ⟨fun _ _ h => (by cases h), fun _ _ _ h => (by cases h), fun _ _ h => (by cases h),
      fun _ _ _ h => (by cases h)⟩
  | succ fuel ih =>
    obtain ⟨ihFc, ihMember, ihOptions, ihMembers⟩ := ih
    refine ⟨fun fc out h => ?_, fun name fc out h => ?_, fun options out h => ?_,
      fun members i out h => ?_⟩
    · cases fc with
      | scalar fc => exact h
      | struct alignment members =>
        obtain ⟨decls, hdecls, h⟩ := Option.bind_eq_some_iff.mp h
        rw [appendFieldClass, ihMembers _ _ _ hdecls]
        exact h
      | option tagRef contentFc =>
        obtain ⟨content, hcontent, h⟩ := Option.bind_eq_some_iff.mp h
        rw [appendFieldClass, ihMember _ _ _ hcontent]
        exact h
      | variant tagRef tagIsBefore options =>
        obtain ⟨options', hoptions, h⟩ := Option.bind_eq_some_iff.mp h
        rw [appendFieldClass, ihOptions _ _ hoptions]
        exact h
      | array length elemFc => cases h
      | sequence lengthRef lengthIsBefore elemFc => cases h
    · obtain ⟨elem, helem, h⟩ := Option.bind_eq_some_iff.mp h
      rw [appendMember, ihFc _ _ helem]
      exact h
    · cases options with
      | nil => exact h
      | cons opt options =>
        obtain ⟨option, hoption, h⟩ := Option.bind_eq_some_iff.mp h
        obtain ⟨options', hoptions, h⟩ := Option.bind_eq_some_iff.mp h
        rw [appendOptions, ihMember _ _ _ hoption, Option.bind_eq_bind, Option.bind_some,
          ihOptions _ _ hoptions]
        exact h
    · rcases hmember : members[i]? with _ | ⟨name, fc⟩
      · rw [appendStructFieldClassMembers_of_none hmember] at h ⊢
        exact h
      · rw [appendStructFieldClassMembers_eq_some_iff hmember] at h ⊢
        obtain ⟨member, rest, hmember, hrest, rfl⟩ := h
        exact ⟨member, rest, ihMember _ _ _ hmember, ihMembers _ _ _ hrest, rfl⟩

theorem appendMember_mono (hle : fuel ≤ fuel') {out : Decl}
    (h : appendMember fuel name fc = some out) :
    appendMember fuel' name fc = some out := by
  induction hle with
  | refl => exact h
  | step _ ih => exact (append_succ _).2.1 _ _ _ ih

theorem appendOptions_mono (hle : fuel ≤ fuel') {out : List Decl}
    (h : appendOptions fuel options = some out) :
    appendOptions fuel' options = some out := by
  induction hle with
  | refl => exact h
  | step _ ih => exact (append_succ _).2.2.1 _ _ ih

theorem appendStructFieldClassMembers_mono (hle : fuel ≤ fuel') {out : List Decl}
    (h : appendStructFieldClassMembers fuel members i = some out) :
    appendStructFieldClassMembers fuel' members i = some out := by
  induction hle with
  | refl => exact h
  | step _ ih => exact (append_succ _).2.2.2 _ _ _ ih

/-! ## Writing a single field class -/

def Written (fc : Fc) : Prop :=
  ∃ fuel, appendFieldClass fuel fc.elem = some (tsdlFc fc)

theorem Written.exists_member (h : Written fc) (name : String) :
    ∃ fuel, appendMember fuel name fc = some (.member name fc.lengths (tsdlFc fc)) := by
  obtain ⟨fuel, hfc⟩ := h
  refine ⟨fuel + 1, ?_⟩
  rw [appendMember, hfc]
  rfl

theorem written_of_member {name' : String} {lengths : List (ℕ ⊕ String)}
    (h : appendMember fuel name fc = some (.member name' lengths (tsdlFc fc))) : Written fc := by
  cases fuel with
  | zero => cases h
  | succ fuel =>
    obtain ⟨elem, helem, h⟩ := Option.bind_eq_some_iff.mp h
    simp only [Option.some.injEq, Decl.member.injEq] at h
    obtain ⟨-, -, rfl⟩ := h
    exact ⟨fuel, helem⟩

theorem written_array_iff {length : ℕ} {elemFc : Fc} :
    Written (.array length elemFc) ↔ Written elemFc := by
  simp only [Written, Fc.elem, tsdlFc]

theorem written_sequence_iff {lengthRef : String} {lengthIsBefore : Bool} {elemFc : Fc} :
    Written (.sequence lengthRef lengthIsBefore elemFc) ↔ Written elemFc := by
  simp only [Written, Fc.elem, tsdlFc]

theorem written_option_iff {tagRef : String} {contentFc : Fc} :
    Written (.option tagRef contentFc) ↔ Written contentFc := by
  constructor
  · rintro ⟨_ | fuel, h⟩
    · cases h
    · obtain ⟨content, hcontent, h⟩ := Option.bind_eq_some_iff.mp h
      simp only [tsdlFc, Option.some.injEq, TsdlFc.variant.injEq, List.cons.injEq, and_true,
        true_and] at h
      subst h
      exact written_of_member hcontent
  · intro h
    obtain ⟨fuel, hcontent⟩ := h.exists_member "content"
    refine ⟨fuel + 1, ?_⟩
    simp [Fc.elem, appendFieldClass, hcontent, tsdlFc]

theorem appendOptions_tsdlOptions_iff :
    (∃ fuel, appendOptions fuel options = some (tsdlOptions options)) ↔
      ∀ opt ∈ options, Written opt.2 := by
  induction options with
  | nil => exact ⟨fun _ opt h => (by cases h), fun _ => ⟨1, rfl⟩⟩
  | cons opt options ih =>
    obtain ⟨name, fc⟩ := opt
    rw [List.forall_mem_cons, ← ih]
    constructor
    · rintro ⟨_ | fuel, h⟩
      · cases h
      · obtain ⟨option, hoption, h⟩ := Option.bind_eq_some_iff.mp h
        obtain ⟨options', hoptions, h⟩ := Option.bind_eq_some_iff.mp h
        simp only [tsdlOptions, Option.some.injEq, List.cons.injEq] at h
        obtain ⟨rfl, rfl⟩ := h
        exact ⟨written_of_member hoption, fuel, hoptions⟩
    · rintro ⟨hopt, fuel, hoptions⟩
      obtain ⟨fuel', hopt⟩ := hopt.exists_member name
      refine ⟨max fuel fuel' + 1, ?_⟩
      rw [appendOptions, appendMember_mono (Nat.le_max_right _ _) hopt, Option.bind_eq_bind,
        Option.bind_some, appendOptions_mono (Nat.le_max_left _ _) hoptions]
      rfl

theorem written_variant_iff {tagRef : String} {tagIsBefore : Bool} :
    Written (.variant tagRef tagIsBefore options) ↔ ∀ opt ∈ options, Written opt.2 := by
  rw [← appendOptions_tsdlOptions_iff]
  constructor
  · rintro ⟨_ | fuel, h⟩
    · cases h
    · obtain ⟨options', hoptions, h⟩ := Option.bind_eq_some_iff.mp h
      simp only [tsdlFc, Option.some.injEq, TsdlFc.variant.injEq, true_and] at h
      subst h
      exact ⟨fuel, hoptions⟩
  · rintro ⟨fuel, hoptions⟩
    refine ⟨fuel + 1, ?_⟩
    simp [Fc.elem, appendFieldClass, hoptions, tsdlFc]

theorem written_struct_iff {alignment : ℕ} :
    Written (.struct alignment members) ↔
      ∃ fuel, appendStructFieldClassMembers fuel members 0 = some (tsdlMembers members) := by
  constructor
  · rintro ⟨_ | fuel, h⟩
    · cases h
    · obtain ⟨decls, hdecls, h⟩ := Option.bind_eq_some_iff.mp h
      simp only [tsdlFc, Option.some.injEq, TsdlFc.struct.injEq, and_true] at h
      subst h
      exact ⟨fuel, hdecls⟩
  · rintro ⟨fuel, hdecls⟩
    refine ⟨fuel + 1, ?_⟩
    simp [Fc.elem, appendFieldClass, hdecls, tsdlFc]

/-! ## Writing the members of a structure -/

def firstMemberName : List Decl → Option String
  | [] => none
  | .member name _ _ :: _ => some name
  | _ :: decls => firstMemberName decls

theorem firstMemberName_generated (fc : Fc) (name : String) (lengths : List (ℕ ⊕ String)) (elem : TsdlFc)
    (decls : List Decl) :
    firstMemberName (fc.generated ++ .member name lengths elem :: decls) = some name := by
  unfold Fc.generated
  split <;> rfl

theorem firstMemberName_tsdlMembers (members : List (String × Fc)) (i : ℕ) :
    firstMemberName (tsdlMembers (members.drop i)) = members[i]?.map Prod.fst := by
  rcases hmember : members[i]? with _ | ⟨name, fc⟩
  · rw [List.drop_eq_nil_of_le (List.getElem?_eq_none_iff.mp hmember)]
    rfl
  · obtain ⟨hlt, heq⟩ := List.getElem?_eq_some_iff.mp hmember
    rw [List.drop_eq_getElem_cons hlt, heq, tsdlMembers, firstMemberName_generated]
    rfl

theorem appendMember_eq_some {member : Decl} (h : appendMember fuel name fc = some member) :
    ∃ elem, member = .member name fc.lengths elem := by
  cases fuel with
  | zero => cases h
  | succ fuel =>
    obtain ⟨elem, -, h⟩ := Option.bind_eq_some_iff.mp h
    exact ⟨elem, (Option.some.inj h).symm⟩

theorem firstMemberName_append {decls : List Decl}
    (h : appendStructFieldClassMembers fuel members i = some decls) :
    firstMemberName decls = members[i]?.map Prod.fst := by
  cases fuel with
  | zero => cases h
  | succ fuel =>
    rcases hmember : members[i]? with _ | ⟨name, fc⟩
    · rw [appendStructFieldClassMembers_of_none hmember] at h
      obtain rfl := Option.some.inj h
      rfl
    · rw [appendStructFieldClassMembers_eq_some_iff hmember] at h
      obtain ⟨member, rest, hwritten, -, rfl⟩ := h
      obtain ⟨elem, rfl⟩ := appendMember_eq_some hwritten
      rw [firstMemberName_generated]
      rfl

theorem tsdlMembers_drop (h : members[i]? = some (name, fc)) :
    tsdlMembers (members.drop i) =
      fc.generated ++ .member name fc.lengths (tsdlFc fc) :: tsdlMembers (members.drop (i + 1)) := by
  obtain ⟨hlt, heq⟩ := List.getElem?_eq_some_iff.mp h
  rw [List.drop_eq_getElem_cons hlt, heq, tsdlMembers]

theorem nextIndex_of_names (hnodup : (members.map Prod.fst).Nodup) {n : ℕ} (hi : i < members.length)
    (h : members[n]?.map Prod.fst = members[i + 1]?.map Prod.fst) :
    n = i + 1 ∨ (i + 1 = members.length ∧ i + 1 ≤ n) := by
  simp only [← List.getElem?_map] at h
  by_cases hlast : i + 1 < members.length
  · have hlt : i + 1 < (members.map Prod.fst).length := by rwa [List.length_map]
    exact .inl ((List.getElem?_inj hlt hnodup).mp h.symm).symm
  · have hlen : i + 1 = members.length := by omega
    have hnone : (members.map Prod.fst)[i + 1]? = none := by
      rw [List.getElem?_eq_none_iff, List.length_map]
      omega
    rw [hnone, List.getElem?_eq_none_iff, List.length_map] at h
    exact .inr ⟨hlen, by omega⟩

theorem exists_append_of_inOrder (horder : InOrder members)
    (hwritten : ∀ member ∈ members, Written member.2) (rest i : ℕ)
    (hrest : members.length = i + rest) :
    ∃ fuel, appendStructFieldClassMembers fuel members i =
      some (tsdlMembers (members.drop i)) := by
  induction rest generalizing i with
  | zero =>
    refine ⟨1, ?_⟩
    rw [appendStructFieldClassMembers_of_none (List.getElem?_eq_none (by omega)),
      List.drop_eq_nil_of_le (by omega)]
    rfl
  | succ rest ih =>
    obtain ⟨fuel, hfuel⟩ := ih (i + 1) (by omega)
    rcases hmember : members[i]? with _ | ⟨name, fc⟩
    · have := List.getElem?_eq_none_iff.mp hmember
      omega
    obtain ⟨fuel', hfc⟩ := (hwritten _ (List.mem_of_getElem? hmember)).exists_member name
    -- Past the end, all indexes are the same for the loop.
    have hnext : ∃ fuel, appendStructFieldClassMembers fuel members (nextIndex fc i) =
        some (tsdlMembers (members.drop (i + 1))) := by
      have horder := horder i _ hmember
      dsimp only at horder
      rcases horder with hnext | ⟨hlast, hnext⟩
      · exact ⟨fuel, by rw [hnext, hfuel]⟩
      · refine ⟨1, ?_⟩
        rw [appendStructFieldClassMembers_of_none (List.getElem?_eq_none (by omega)),
          List.drop_eq_nil_of_le (by omega)]
        rfl
    obtain ⟨fuel, hfuel⟩ := hnext
    refine ⟨max fuel fuel' + 1, ?_⟩
    rw [appendStructFieldClassMembers_eq_some_iff hmember]
    exact ⟨_, _, appendMember_mono (Nat.le_max_right _ _) hfc,
      appendStructFieldClassMembers_mono (Nat.le_max_left _ _) hfuel, tsdlMembers_drop hmember⟩

theorem inOrder_of_append (hnodup : (members.map Prod.fst).Nodup)
    (h : appendStructFieldClassMembers fuel members i = some (tsdlMembers (members.drop i))) :
    ∀ j name fc, i ≤ j → members[j]? = some (name, fc) →
      Written fc ∧
        (nextIndex fc j = j + 1 ∨ (j + 1 = members.length ∧ j + 1 ≤ nextIndex fc j)) := by
  induction fuel generalizing i with
  | zero => cases h
  | succ fuel ih =>
    intro j name fc hij hj
    have hlt : j < members.length := (List.getElem?_eq_some_iff.mp hj).1
    rcases hmember : members[i]? with _ | ⟨name', fc'⟩
    · have := List.getElem?_eq_none_iff.mp hmember
      omega
    rw [appendStructFieldClassMembers_eq_some_iff hmember, tsdlMembers_drop hmember] at h
    obtain ⟨member, rest, hwritten, hrest, heq⟩ := h
    obtain ⟨rfl, rfl⟩ := List.cons.inj (List.append_cancel_left heq)
    have hnext : nextIndex fc' i = i + 1 ∨
        (i + 1 = members.length ∧ i + 1 ≤ nextIndex fc' i) := by
      apply nextIndex_of_names hnodup (by omega)
      rw [← firstMemberName_append hrest, firstMemberName_tsdlMembers]
    rcases Nat.eq_or_lt_of_le hij with rfl | hij
    · rw [hmember] at hj
      obtain ⟨rfl, rfl⟩ := Prod.mk.inj (Option.some.inj hj)
      exact ⟨written_of_member hwritten, hnext⟩
    · rcases hnext with hnext | ⟨hlast, -⟩
      · rw [hnext] at hrest
        exact ih hrest j name fc hij hj
      · omega

/-! ## The result -/

theorem written_iff (fc : Fc) (hnames : fc.DistinctNames) : Written fc ↔ fc.MembersInOrder := by
  induction fc using Fc.ind with
  | scalar fc => exact ⟨fun _ => trivial, fun _ => ⟨1, rfl⟩⟩
  | struct alignment members ih =>
    rw [Fc.DistinctNames, allDistinctNames_iff] at hnames
    rw [written_struct_iff, Fc.MembersInOrder, allInOrder_iff]
    constructor
    · rintro ⟨fuel, h⟩
      have hmembers := inOrder_of_append hnames.1 (i := 0) h
      constructor
      · rintro i ⟨name, fc⟩ hmember
        exact (hmembers i name fc (Nat.zero_le i) hmember).2
      · intro member hmember
        obtain ⟨i, hi⟩ := List.mem_iff_getElem?.mp hmember
        rw [← ih member hmember (hnames.2 member hmember)]
        exact (hmembers i member.1 member.2 (Nat.zero_le i) hi).1
    · rintro ⟨horder, hall⟩
      refine exists_append_of_inOrder horder (fun member hmember => ?_) members.length 0
        (Nat.zero_add _).symm
      exact (ih member hmember (hnames.2 member hmember)).mpr (hall member hmember)
  | option tagRef contentFc ih =>
    rw [written_option_iff, ih hnames, Fc.MembersInOrder]
  | variant tagRef tagIsBefore options ih =>
    rw [Fc.DistinctNames, allDistinctNames_iff] at hnames
    rw [written_variant_iff, Fc.MembersInOrder, allInOrder_iff]
    exact forall₂_congr fun opt hopt => ih opt hopt (hnames opt hopt)
  | array length elemFc ih => rw [written_array_iff, ih hnames, Fc.MembersInOrder]
  | sequence lengthRef lengthIsBefore elemFc ih =>
    rw [written_sequence_iff, ih hnames, Fc.MembersInOrder]

/-- The writer declares each member of a structure once and in order, immediately after what's
generated for it, if and only if the members of each structure are in order. -/
theorem appendStructFieldClassMembers_eq_tsdlMembers_iff (members : List (String × Fc))
    (hnodup : (members.map Prod.fst).Nodup) (hnames : AllDistinctNames members) :
    (∃ fuel, appendStructFieldClassMembers fuel members 0 = some (tsdlMembers members)) ↔
      InOrder members ∧ AllInOrder members := by
  have hstruct : (Fc.struct 1 members).DistinctNames := ⟨hnodup, hnames⟩
  have hiff := written_iff _ hstruct
  rwa [written_struct_iff, Fc.MembersInOrder] at hiff

def variantSecond : List (String × Fc) :=
  [("a", .scalar .string), ("v", .variant "__v_tag" true [("x", .scalar .bool)]),
    ("s", .sequence "__s_len" true (.scalar .string))]

theorem inOrder_variantSecond : InOrder variantSecond := by
  intro i member hmember
  left
  rcases i with _ | _ | _ | i
  · obtain rfl := Option.some.inj hmember
    rfl
  · obtain rfl := Option.some.inj hmember
    rfl
  · obtain rfl := Option.some.inj hmember
    rfl
  · cases hmember

theorem appendStructFieldClassMembers_variantSecond :
    ∃ fuel, appendStructFieldClassMembers fuel variantSecond 0 =
      some [.member "a" [] (.scalar .string), .variantTag "__v_tag" [("x", 0)],
        .member "v" [] (.variant "__v_tag" [.member "x" [] (.scalar .bool)]), .length "__s_len",
        .member "s" [.inr "__s_len"] (.scalar .string)] := by
  have hnames : AllDistinctNames variantSecond := by simp [variantSecond, AllDistinctNames,
    Fc.DistinctNames]
  have hall : AllInOrder variantSecond := by simp [variantSecond, AllInOrder, Fc.MembersInOrder]
  exact (appendStructFieldClassMembers_eq_tsdlMembers_iff variantSecond (by decide) hnames).mpr
    ⟨inOrder_variantSecond, hall⟩

/-- After a first member which is a variant with two options, the loop goes to the fourth member. -/
def variantFirst : List (String × Fc) :=
  [("v", .variant "__v_tag" true [("x", .scalar .bool), ("y", .scalar .bool)]),
    ("a", .scalar .string)]

/-- After a third member which is a variant with a single option, the loop goes to the third member.
-/
def variantThird : List (String × Fc) :=
  [("a", .scalar .string), ("b", .scalar .string),
    ("v", .variant "__v_tag" true [("x", .scalar .bool)])]

theorem appendStructFieldClassMembers_variantThird (fuel : ℕ) :
    appendStructFieldClassMembers fuel variantThird 2 = none := by
  induction fuel with
  | zero => rfl
  | succ fuel ih =>
    rw [Option.eq_none_iff_forall_ne_some]
    intro decls h
    rw [appendStructFieldClassMembers_eq_some_iff rfl] at h
    obtain ⟨member, rest, -, hrest, -⟩ := h
    have hnone : appendStructFieldClassMembers fuel variantThird 2 = some rest := hrest
    rw [ih] at hnone
    cases hnone

/-- One structure loses its second member, and writing the other one never ends. -/
theorem appendStructFieldClassMembers_variantFirst_variantThird :
    (∃ fuel, appendStructFieldClassMembers fuel variantFirst 0 =
      some [.variantTag "__v_tag" [("x", 0), ("y", 1)],
        .member "v" []
          (.variant "__v_tag" [.member "x" [] (.scalar .bool), .member "y" [] (.scalar .bool)])]) ∧
      (¬ ∃ fuel, appendStructFieldClassMembers fuel variantFirst 0 =
        some (tsdlMembers variantFirst)) ∧
      ∀ fuel, appendStructFieldClassMembers fuel variantThird 0 = none := by
  have hfirst : appendStructFieldClassMembers 8 variantFirst 0 =
      some [.variantTag "__v_tag" [("x", 0), ("y", 1)],
        .member "v" []
          (.variant "__v_tag" [.member "x" [] (.scalar .bool), .member "y" [] (.scalar .bool)])] :=
    rfl
  refine ⟨⟨8, hfirst⟩, ?_, fun fuel => ?_⟩
  · rintro ⟨fuel, h⟩
    have hmax := appendStructFieldClassMembers_mono (Nat.le_max_left fuel 8) h
    rw [appendStructFieldClassMembers_mono (Nat.le_max_right fuel 8) hfirst] at hmax
    simp [variantFirst, tsdlMembers, Fc.generated] at hmax
  · rw [Option.eq_none_iff_forall_ne_some]
    intro decls h
    rcases fuel with _ | _ | fuel
    · cases h
    · cases h
    · rw [appendStructFieldClassMembers_eq_some_iff rfl] at h
      obtain ⟨_, rest, -, h, -⟩ := h
      rw [appendStructFieldClassMembers_eq_some_iff rfl] at h
      obtain ⟨_, rest, -, h, -⟩ := h
      have hnone := appendStructFieldClassMembers_variantThird fuel
      rw [show nextIndex (Fc.scalar .string) (nextIndex (Fc.scalar .string) 0) = 2 from rfl,
        hnone] at h
      cases h

end Babeltrace.Tsdl
