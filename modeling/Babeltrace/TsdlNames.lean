import Babeltrace.TsdlVisitor

/-!
# Names of the members and options of TSDL classes

The visitor compares the identifier of a field with the trace IR names of the previous ones, which
lack one leading underscore: the check is right about a pair when the second identifier has no
leading underscore.
-/
namespace Babeltrace.CtfMeta

def Fc.namedNames : Fc → List String
  | .struct _ named | .variant _ named => named.map fun named => unescapeOrigName named.1
  | _ => []

/-! ## What the check accepts -/

variable {body : Body} {fields : List (String × Fc)} {err : VisitErr} {names : List String}

theorem hasName_append {origName name : String} {fc : Fc} :
    (body.append origName fc).hasName name = true ↔
      body.hasName name = true ∨ unescapeOrigName origName = name := by
  simp [Body.hasName, Body.append]

theorem appendFields_eq_ok_iff :
    (∃ body', appendFields fields body = .ok body') ↔
      (∀ name ∈ fields.map Prod.fst, body.hasName name = false) ∧
        (fields.map Prod.fst).Pairwise fun a b => unescapeOrigName a ≠ b := by
  induction fields generalizing body with
  | nil => simp [appendFields]
  | cons field fields ih =>
    obtain ⟨name, fc⟩ := field
    rw [appendFields]
    cases hname : body.hasName name with
    | true => simp [hname]
    | false =>
      simp only [Bool.false_eq_true, if_false, List.map_cons, List.forall_mem_cons, hname,
        List.pairwise_cons, ih, ← Bool.not_eq_true, hasName_append, not_or, forall_and, ne_eq]
      tauto

theorem appendFields_eq_error (h : appendFields fields body = .error err) :
    ∃ name, err = .duplicateField body.kind name := by
  induction fields generalizing body with
  | nil => cases h
  | cons field fields ih =>
    rw [appendFields] at h
    split at h
    · cases h
      exact ⟨field.1, rfl⟩
    · have hfields := ih h
      exact hfields

theorem named_of_appendFields {body' : Body} (h : appendFields fields body = .ok body') :
    body'.named = body.named ++ fields := by
  induction fields generalizing body with
  | nil =>
    cases h
    rw [List.append_nil]
  | cons field fields ih =>
    rw [appendFields] at h
    split at h
    · cases h
    · rw [ih h, Body.append, List.append_assoc]
      rfl

/-! ## Whole bodies -/

section
variable (env : Env) (kind : CompoundKind) (alignment : ℕ) (entries : List Entry)
  (scope : DeclScope)

def fieldNames : List String := (bodyFields env kind entries scope).1.map Prod.fst

/-- A field of the body, and not of a nested one, is a duplicate. -/
def ReportsDuplicate : Prop :=
  ∃ name, visitEntries env entries { kind, alignment } scope =
    .error (.cannotVisitEntry kind (.duplicateField kind name))

variable {env kind entries scope}

theorem declFields_error {listName : Option String} {visit : Visit}
    {declarators : List (String × Declarator)}
    (h : (declFields env listName visit declarators scope).2 = .error err) :
    ∃ cause, err = .cannotVisitDeclarator cause := by
  induction declarators generalizing scope with
  | nil => cases h
  | cons declarator declarators ih =>
    rw [declFields] at h
    split at h
    · cases h
      exact ⟨_, rfl⟩
    · exact ih h

theorem mapError_eq_error {ε ε' α : Type} {f : ε → ε'} {x : Except ε α} {err : ε'}
    (h : x.mapError f = .error err) : ∃ err', err = f err' := by
  cases x with
  | error err' =>
    cases h
    exact ⟨err', rfl⟩
  | ok a => cases h

theorem entryFields_error {entry : Entry} (h : (entryFields env kind scope entry).2 = .error err)
    (name : String) :
    err ≠ .duplicateField kind name := by
  cases entry with
  | typedef | typealias =>
    obtain ⟨_, rfl⟩ := mapError_eq_error h
    exact nofun
  | field spec declarators =>
    obtain ⟨_, rfl⟩ := declFields_error h
    exact nofun

theorem bodyFields_error (h : (bodyFields env kind entries scope).2 = .error err) (name : String) :
    err ≠ .cannotVisitEntry kind (.duplicateField kind name) := by
  induction entries generalizing scope with
  | nil => cases h
  | cons entry entries ih =>
    rw [bodyFields] at h
    split at h
    · rename_i fields err' heq
      cases h
      have herr : (entryFields env kind scope entry).2 = .error err' := by rw [heq]
      intro hdup
      rw [VisitErr.cannotVisitEntry.injEq] at hdup
      exact entryFields_error herr name hdup.2
    · exact ih h

theorem appendFields_bodyFields_iff :
    (∃ body', appendFields (bodyFields env kind entries scope).1 { kind, alignment } = .ok body') ↔
      (fieldNames env kind entries scope).Pairwise fun a b => unescapeOrigName a ≠ b := by
  rw [appendFields_eq_ok_iff]
  exact and_iff_right fun _ _ => rfl

theorem reportsDuplicate_iff : ReportsDuplicate env kind alignment entries scope ↔
    ¬(fieldNames env kind entries scope).Pairwise fun a b => unescapeOrigName a ≠ b := by
  rw [← appendFields_bodyFields_iff alignment, ReportsDuplicate, visitEntries_eq]
  cases happ : appendFields (bodyFields env kind entries scope).1 { kind, alignment } with
  | error err =>
    obtain ⟨name, rfl⟩ := appendFields_eq_error happ
    exact iff_of_true ⟨name, rfl⟩ nofun
  | ok body' =>
    refine iff_of_false ?_ fun h => h ⟨body', rfl⟩
    rintro ⟨name, h⟩
    cases hrest : (bodyFields env kind entries scope).2 with
    | error err =>
      rw [hrest] at h
      exact bodyFields_error hrest name (Except.error.inj h)
    | ok scope' =>
      rw [hrest] at h
      cases h

theorem visitEntries_eq_ok_iff {body' : Body} {scope' : DeclScope} :
    visitEntries env entries { kind, alignment } scope = .ok (body', scope') ↔
      appendFields (bodyFields env kind entries scope).1 { kind, alignment } = .ok body' ∧
        (bodyFields env kind entries scope).2 = .ok scope' := by
  rw [visitEntries_eq]
  cases appendFields (bodyFields env kind entries scope).1 { kind, alignment } with
  | error err => exact iff_of_false nofun fun h => nomatch h.1
  | ok body =>
    cases (bodyFields env kind entries scope).2 with
    | error err => exact iff_of_false nofun fun h => nomatch h.2
    | ok scope =>
      refine ⟨fun h => ?_, fun h => ?_⟩
      · cases h
        exact ⟨rfl, rfl⟩
      · cases h.1
        cases h.2
        rfl

theorem namedNames_iterate_copy (body : Body) (k : ℕ) :
    (Fc.copy^[k] body.fc).namedNames = body.named.map fun named =>
      unescapeOrigName^[k + 1] named.1 := by
  rw [Fc.iterate_copy, Function.iterate_succ']
  have hnamed := map_fst_mapNamesNamed unescapeOrigName^[k] body.named
  have hnames : ∀ named : List (String × Fc), (named.map fun named => unescapeOrigName named.1) =
      (named.map Prod.fst).map unescapeOrigName := fun named => by simp
  cases hkind : body.kind <;>
    simp only [Body.fc, hkind, Fc.mapNames, Fc.namedNames, hnames, hnamed, List.map_map] <;> rfl

/-! ## Pairs of identifiers -/

def HasPair (R : String → String → Prop) (names : List String) : Prop :=
  ∃ a b, [a, b].Sublist names ∧ R a b

theorem not_pairwise_iff {R : String → String → Prop} :
    ¬names.Pairwise (fun a b => ¬R a b) ↔ HasPair R names := by
  rw [List.pairwise_iff_forall_sublist, HasPair]
  push Not
  rfl

theorem hasPair_or {R S : String → String → Prop} :
    HasPair (fun a b => R a b ∨ S a b) names ↔ HasPair R names ∨ HasPair S names := by
  simp only [HasPair, and_or_left, exists_or]

def Hit (a b : String) : Prop := unescapeOrigName a = b ∧ ¬IsEscaped b

def Spurious (a b : String) : Prop := unescapeOrigName a = b ∧ IsEscaped b

def Missed (a b : String) : Prop := unescapeOrigName a = unescapeOrigName b ∧ IsEscaped b

theorem eq_iff_hit_or_spurious (a b : String) :
    unescapeOrigName a = b ↔ Hit a b ∨ Spurious a b := by
  rw [Hit, Spurious, ← and_or_left]
  exact (and_iff_left (Classical.em _).symm).symm

theorem eq_iff_hit_or_missed (a b : String) :
    unescapeOrigName a = unescapeOrigName b ↔ Hit a b ∨ Missed a b := by
  by_cases h : IsEscaped b
  · simp [Hit, Missed, h]
  · simp [Hit, Missed, h, unescapeOrigName_of_not_isEscaped h]

theorem not_nodup_map_iff {f : String → String} :
    ¬(names.map f).Nodup ↔ HasPair (fun a b => f a = f b) names := by
  rw [List.Nodup, List.pairwise_map, ← not_pairwise_iff]

/-! ## Uniqueness -/

variable (env kind entries scope)

/-- The visitor reports a duplicate exactly when two fields of the body have the same trace IR name,
and the names of an accepted class are different, also when it's a copy of a copy, and so on. -/
def NamesStayUnique (copies : ℕ) : Prop :=
  (ReportsDuplicate env kind alignment entries scope ↔
    ¬((fieldNames env kind entries scope).map unescapeOrigName).Nodup) ∧
  ∀ body scope', visitEntries env entries { kind, alignment } scope = .ok (body, scope') →
    (Fc.copy^[copies] body.fc).namedNames.Nodup

theorem accepted_nodup_iff (copies : ℕ) :
    (∀ body scope', visitEntries env entries { kind, alignment } scope = .ok (body, scope') →
      (Fc.copy^[copies] body.fc).namedNames.Nodup) ↔
    (ReportsDuplicate env kind alignment entries scope ∨
      (∃ err, (bodyFields env kind entries scope).2 = .error err) ∨
      ((fieldNames env kind entries scope).map unescapeOrigName^[copies + 1]).Nodup) := by
  have hnames : ∀ {body : Body},
      appendFields (bodyFields env kind entries scope).1 { kind, alignment } = .ok body →
        (Fc.copy^[copies] body.fc).namedNames =
          (fieldNames env kind entries scope).map unescapeOrigName^[copies + 1] := by
    intro body happ
    rw [namedNames_iterate_copy, named_of_appendFields happ, fieldNames, List.map_map]
    rfl
  have hreports : ReportsDuplicate env kind alignment entries scope ↔ ¬∃ body,
      appendFields (bodyFields env kind entries scope).1 { kind, alignment } = .ok body := by
    rw [reportsDuplicate_iff, appendFields_bodyFields_iff]
  simp only [visitEntries_eq_ok_iff, hreports]
  constructor
  · intro h
    by_cases happ : ∃ body,
        appendFields (bodyFields env kind entries scope).1 { kind, alignment } = .ok body
    · obtain ⟨body, hbody⟩ := happ
      cases hrest : (bodyFields env kind entries scope).2 with
      | error err => exact .inr (.inl ⟨err, rfl⟩)
      | ok scope' => exact .inr (.inr (hnames hbody ▸ h body scope' ⟨hbody, hrest⟩))
    · exact .inl happ
  · rintro (h | ⟨err, herr⟩ | h) body scope' ⟨hbody, hrest⟩
    · exact absurd ⟨body, hbody⟩ h
    · rw [herr] at hrest
      cases hrest
    · rw [hnames hbody]
      exact h

/-- The names stay unique exactly when the body has a field whose identifier is, without a leading
underscore, the trace IR name of a previous one, or when a wrong report and a missed duplicate go
together. -/
theorem namesStayUnique_iff (copies : ℕ) :
    NamesStayUnique env kind alignment entries scope copies ↔
      HasPair Hit (fieldNames env kind entries scope) ∨
      (HasPair Spurious (fieldNames env kind entries scope) ↔
        HasPair Missed (fieldNames env kind entries scope)) ∧
      (HasPair Spurious (fieldNames env kind entries scope) ∨
        (∃ err, (bodyFields env kind entries scope).2 = .error err) ∨
        ((fieldNames env kind entries scope).map unescapeOrigName^[copies + 1]).Nodup) := by
  have hreports : ReportsDuplicate env kind alignment entries scope ↔
      HasPair Hit (fieldNames env kind entries scope) ∨
        HasPair Spurious (fieldNames env kind entries scope) := by
    rw [reportsDuplicate_iff, ← hasPair_or]
    simp only [ne_eq, not_pairwise_iff, eq_iff_hit_or_spurious]
  have hdup : ¬((fieldNames env kind entries scope).map unescapeOrigName).Nodup ↔
      HasPair Hit (fieldNames env kind entries scope) ∨
        HasPair Missed (fieldNames env kind entries scope) := by
    rw [not_nodup_map_iff, ← hasPair_or]
    simp only [eq_iff_hit_or_missed]
  rw [NamesStayUnique, accepted_nodup_iff, hreports, hdup]
  -- Both are reported and right as soon as there's a hit.
  by_cases hhit : HasPair Hit (fieldNames env kind entries scope)
  · simp only [hhit, true_or, true_and]
  · simp only [hhit, false_or]

def twoFields (fieldName fieldName' : String) : List Entry :=
  [.field .string [(fieldName, {}), (fieldName', {})]]

theorem visitEntries_a_underscore_a :
    ∃ body, visitEntries [] (twoFields "a" "_a") { kind := .struct } ⟨[], []⟩ =
        .ok (body, ⟨[], []⟩) ∧
      body.fc.namedNames = ["a", "a"] ∧
      ¬NamesStayUnique [] .struct 1 (twoFields "a" "_a") ⟨[], []⟩ 0 := by
  refine ⟨⟨.struct, 8, [("a", .string), ("_a", .string)]⟩, ?_, by decide, ?_⟩
  · rfl
  · intro h
    have := h.2 ⟨.struct, 8, [("a", .string), ("_a", .string)]⟩ ⟨[], []⟩ rfl
    revert this
    decide

end

end Babeltrace.CtfMeta
