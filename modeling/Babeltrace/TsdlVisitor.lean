import Babeltrace.TsdlClasses

/-!
# Visiting the declarations of TSDL field classes

The part of `metadata/tsdl/visitor-generate-ir.cpp` which makes field classes from syntax tree
nodes. `bodyFields_visitEntries` separates the names of a body from the rest of it.
-/
namespace Babeltrace.CtfMeta
open ItemSeq (ByteOrder)

/-! ## Syntax tree -/

inductive UnaryExpr
  | unsignedConstant (val : UInt64)
  | signedConstant (val : UInt64)
  | string (str : String)
  deriving DecidableEq, Repr

structure Enumerator where
  label : String
  values : List UnaryExpr
  deriving DecidableEq, Repr

/-- What stands between the brackets: a constant, or names joined by dots -/
inductive Length
  | const (val : UInt64)
  | ref (names : String)
  deriving DecidableEq, Repr

/-- Each pointer may have a `const` qualifier, and the lengths are in the order in which they apply.
-/
structure Declarator where
  pointers : List Bool := []
  lengths : List Length := []
  deriving DecidableEq, Repr

mutual

inductive Spec
  | integer (alignment : ℕ) (info : IntInfo)
  | floatingPoint (alignment : ℕ) (byteOrder : ByteOrder) (size : ℕ)
  | string
  | typeName (name : String)
  | struct (name : Option String) (hasBody : Bool) (entries : List Entry) (minAlign : ℕ)
  | variant (name : Option String) (tag : Option String) (hasBody : Bool) (entries : List Entry)
  | enum (name : Option String) (container : Option Spec) (hasBody : Bool)
      (enumerators : List Enumerator)

inductive Entry
  | typedef (spec : Spec) (declarators : List (String × Declarator))
  | typealias (spec : Spec) (declarator : Declarator) (id : Option String) (aliasName : String)
  | field (spec : Spec) (declarators : List (String × Declarator))

end

/-! ## Declaration scopes -/

inductive Prefix
  | typeAlias
  | enum
  | struct
  | variant
  deriving DecidableEq, Repr

/-- `ctx_decl_scope`, without its parent -/
abbrev DeclMap := List ((Prefix × String) × Fc)

/-- The current declaration scope and its ancestors, the nearest one first -/
structure DeclScope where
  declMap : DeclMap
  parents : List DeclMap

def DeclScope.chain (scope : DeclScope) : List DeclMap := scope.declMap :: scope.parents

def DeclScope.push (scope : DeclScope) : DeclScope := ⟨[], scope.chain⟩

def DeclScope.pop (scope : DeclScope) : DeclScope :=
  match scope.parents with
  | [] => scope
  | declMap :: parents => ⟨declMap, parents⟩

/-- `ctx_decl_scope_lookup_prefix_alias()` without a limit and with a copy -/
def DeclScope.lookup (scope : DeclScope) (pfx : Prefix) (name : String) : Option Fc :=
  (scope.chain.findSome? fun declMap => declMap.lookup (pfx, name)).map Fc.copy

/-- `ctx_decl_scope_lookup_prefix_alias()` within one level -/
def DeclScope.isLocal (scope : DeclScope) (pfx : Prefix) (name : String) : Bool :=
  (scope.declMap.lookup (pfx, name)).isSome

/-- Nothing if the name exists in the local scope -/
def DeclScope.register (scope : DeclScope) (pfx : Prefix) (name : String) (decl : Fc) :
    Option DeclScope :=
  if scope.isLocal pfx name then none
  else some { scope with declMap := ((pfx, name), decl.copy) :: scope.declMap }

/-! ## Errors -/

inductive CompoundKind
  | struct
  | variant
  deriving DecidableEq, Repr

/-- The last cause is the outermost constructor. -/
inductive VisitErr
  | missingName (pfx : Prefix)
  | cannotFind (pfx : Prefix) (name : String)
  | alreadyDeclared (pfx : Prefix) (name : String)
  | cannotRegister (pfx : Prefix) (name : String)
  | cannotFindEnvEntry (name : String)
  | wrongEnvEntryType (name : String)
  | negativeArrayLength (name : String) (val : ℤ)
  | untaggedVariantDef
  | expectingEmptyId (id : String)
  | duplicateField (kind : CompoundKind) (fieldName : String)
  | containerNotInt
  | expectingConstant (label : String)
  | invalidEnumEntry (label : String)
  | cannotVisitDeclarator (cause : VisitErr)
  | cannotVisitContainer (cause : VisitErr)
  | cannotVisitEntry (kind : CompoundKind) (cause : VisitErr)
  | cannotAddClass (kind : CompoundKind) (cause : VisitErr)
  | cannotVisitEnumEntry (cause : VisitErr)
  /-- A failed assertion about a missing name -/
  | abort

/-! ## Declarators -/

inductive EnvVal
  | int (val : ℤ)
  | str (val : String)
  deriving DecidableEq, Repr

abbrev Env := List (String × EnvVal)

abbrev Visit := DeclScope → Except VisitErr (Fc × DeclScope)

/-- `get_class_specifier_list_name()` -/
def Spec.listName : Spec → Option String
  | .typeName name => some name
  | .struct name _ _ _ => name.map ("struct " ++ ·)
  | .variant name _ _ _ => name.map ("variant " ++ ·)
  | .enum name _ _ _ => name.map ("enum " ++ ·)
  | .integer _ _ | .floatingPoint _ _ _ | .string => none

def createClassAliasIdentifier (listName : Option String) (pointers : List Bool) : Option String :=
  listName.map fun name => pointers.foldl (fun str isConst =>
    if isConst then str ++ " *" ++ " const" else str ++ " *") name

def pointerFc : Fc → Fc
  | .int alignment info => .int alignment { info with dispBase := .hex }
  | fc => fc

/-- One bracketed length of `visit_field_class_declarator()` -/
def lengthFc (env : Env) (nestedDecl : Fc) : Length → Except VisitErr Fc
  | .const val => .ok (.array val.toNat nestedDecl)
  | .ref names =>
    match names.toList with
    | 'e' :: 'n' :: 'v' :: '.' :: entryName =>
      match env.lookup (String.ofList entryName) with
      | none => .error (.cannotFindEnvEntry (String.ofList entryName))
      | some (.str _) => .error (.wrongEnvEntryType (String.ofList entryName))
      | some (.int val) =>
        if val < 0 then .error (.negativeArrayLength (String.ofList entryName) val)
        else .ok (.array val.toNat nestedDecl)
    | _ => .ok (.sequence names nestedDecl)

/-- The name of a class without one is an assertion failure. -/
def visitFieldClassDeclarator (env : Env) (listName : Option String) (visit : Visit)
    (declarator : Declarator) (scope : DeclScope) : Except VisitErr (Fc × DeclScope) := do
  let (nestedDecl, scope) ←
    if declarator.pointers.isEmpty then visit scope
    else
      match createClassAliasIdentifier listName declarator.pointers with
      | none => .error .abort
      | some aliasName =>
        match scope.lookup .typeAlias aliasName with
        | none => .error (.cannotFind .typeAlias aliasName)
        | some fc => .ok (pointerFc fc, scope)
  let fc ← declarator.lengths.foldlM (lengthFc env) nestedDecl
  return (fc, scope)

/-! ## Type definitions and aliases -/

def Fc.isVariant : Fc → Bool
  | .variant _ _ => true
  | _ => false

def registerAlias (name : String) (fc : Fc) (scope : DeclScope) : Except VisitErr DeclScope :=
  match scope.register .typeAlias name fc with
  | none => .error (.cannotRegister .typeAlias name)
  | some scope => .ok scope

def visitFieldClassDef (env : Env) (listName : Option String) (visit : Visit) :
    List (String × Declarator) → DeclScope → Except VisitErr DeclScope
  | [], scope => .ok scope
  | (id, declarator) :: declarators, scope => do
    let (fc, scope) ← (visitFieldClassDeclarator env listName visit declarator scope).mapError
      .cannotVisitDeclarator
    if fc.isVariant then .error .untaggedVariantDef
    let scope ← registerAlias id fc scope
    visitFieldClassDef env listName visit declarators scope

def visitFieldClassAlias (env : Env) (listName : Option String) (visit : Visit)
    (declarator : Declarator) (id : Option String) (aliasName : String) (scope : DeclScope) :
    Except VisitErr DeclScope := do
  let (fc, scope) ← (visitFieldClassDeclarator env listName visit declarator scope).mapError
    .cannotVisitDeclarator
  if fc.isVariant then .error .untaggedVariantDef
  match id with
  | some id => .error (.expectingEmptyId id)
  | none => registerAlias aliasName fc scope

/-! ## Members and options -/

structure Body where
  kind : CompoundKind
  alignment : ℕ := 1
  named : List (String × Fc) := []

def Body.fc (body : Body) : Fc :=
  match body.kind with
  | .struct => .struct body.alignment body.named
  | .variant => .variant "" body.named

/-- `ctf_field_class_struct_borrow_member_by_name()` and
`ctf_field_class_variant_borrow_option_by_name()` -/
def Body.hasName (body : Body) (name : String) : Bool :=
  body.named.any fun named => unescapeOrigName named.1 == name

/-- `ctf_field_class_struct_append_member()` and `ctf_field_class_variant_append_option()` -/
def Body.append (body : Body) (origName : String) (fc : Fc) : Body :=
  { body with
    named := body.named ++ [(origName, fc)]
    alignment := match body.kind with
      | .struct => max body.alignment fc.alignment
      | .variant => body.alignment }

/-- `visit_struct_decl_field()` and `visit_variant_decl_field()` -/
def visitDeclField (env : Env) (listName : Option String) (visit : Visit) :
    List (String × Declarator) → Body → DeclScope → Except VisitErr (Body × DeclScope)
  | [], body, scope => .ok (body, scope)
  | (fieldName, declarator) :: declarators, body, scope => do
    let (fc, scope) ← (visitFieldClassDeclarator env listName visit declarator scope).mapError
      .cannotVisitDeclarator
    if body.hasName fieldName then .error (.duplicateField body.kind fieldName)
    visitDeclField env listName visit declarators (body.append fieldName fc) scope

/-! ## Enumerations -/

/-- `uori`: both members of the union are unsigned -/
structure Uori where
  isSigned : Bool
  value : UInt64
  deriving DecidableEq, Repr

/-- The loop of `visit_enum_decl_entry()` over the values -/
def enumeratorBounds (label : String) :
    List UnaryExpr → List Uori → Except VisitErr (List Uori)
  | [], bounds => .ok bounds
  | value :: values, bounds => do
    let bound ← match value with
      | .signedConstant val => .ok ⟨true, val⟩
      | .unsignedConstant val => .ok ⟨false, val⟩
      | .string _ => .error (.expectingConstant label)
    if 1 < bounds.length then .error (.invalidEnumEntry label)
    enumeratorBounds label values (bounds ++ [bound])

/-- The successor of the upper bound is computed on 64 bits. -/
def visitEnumDeclEntry (enumerator : Enumerator) (mappings : EnumMappings) (last : Uori) :
    Except VisitErr (EnumMappings × Uori) := do
  let (start, stop) := match ← enumeratorBounds enumerator.label enumerator.values [] with
    | [] => (last, last)
    | [start] => (start, start)
    | start :: stop :: _ => (start, stop)
  return (mappings.mapRange enumerator.label ⟨start.value, stop.value⟩,
    { last with value := stop.value + 1 })

/-- The loop of `visit_enum_decl()` over the enumerators -/
def visitEnumerators : List Enumerator → EnumMappings → Uori → Except VisitErr EnumMappings
  | [], mappings, _ => .ok mappings
  | enumerator :: enumerators, mappings, last => do
    let (mappings, last) ← (visitEnumDeclEntry enumerator mappings last).mapError
      .cannotVisitEnumEntry
    visitEnumerators enumerators mappings last

def enumFc (enumerators : List Enumerator) : Fc → Except VisitErr Fc
  | .int alignment info => do
    let mappings ← visitEnumerators enumerators .empty ⟨info.isSigned, 0⟩
    return .enum alignment info mappings
  | _ => .error .containerNotInt

/-! ## Classes -/

def lookupBodyless (pfx : Prefix) (name : Option String) (scope : DeclScope) :
    Except VisitErr Fc :=
  match name with
  | none => .error (.missingName pfx)
  | some name =>
    match scope.lookup pfx name with
    | none => .error (.cannotFind pfx name)
    | some fc => .ok fc

def checkNotDeclared (pfx : Prefix) (name : Option String) (scope : DeclScope) :
    Except VisitErr Unit :=
  match name with
  | none => .ok ()
  | some name => if scope.isLocal pfx name then .error (.alreadyDeclared pfx name) else .ok ()

def registerNamed (pfx : Prefix) (name : Option String) (fc : Fc) (scope : DeclScope) :
    Except VisitErr DeclScope :=
  match name with
  | none => .ok scope
  | some name =>
    match scope.register pfx name fc with
    | none => .error (.cannotRegister pfx name)
    | some scope => .ok scope

abbrev VisitBody := Body → DeclScope → Except VisitErr (Body × DeclScope)

def visitStructDecl (name : Option String) (hasBody : Bool) (minAlign : ℕ) (visitBody : VisitBody)
    (scope : DeclScope) : Except VisitErr (Fc × DeclScope) := do
  if hasBody then
    checkNotDeclared .struct name scope
    let alignment := if minAlign = 0 then 1 else minAlign
    let (body, scope) ← visitBody { kind := .struct, alignment } scope.push
    let scope ← registerNamed .struct name body.fc scope.pop
    return (body.fc, scope)
  else
    return (← lookupBodyless .struct name scope, scope)

def setTagRef (tag : Option String) : Fc → Fc
  | .variant tagRef options => .variant (tag.getD tagRef) options
  | fc => fc

/-- `visit_variant_decl()`: the registered class has no tag. -/
def visitVariantDecl (name : Option String) (tag : Option String) (hasBody : Bool)
    (visitBody : VisitBody) (scope : DeclScope) : Except VisitErr (Fc × DeclScope) := do
  if hasBody then
    checkNotDeclared .variant name scope
    let (body, scope) ← visitBody { kind := .variant } scope.push
    let scope ← registerNamed .variant name body.fc scope.pop
    return (setTagRef tag body.fc, scope)
  else
    return (setTagRef tag (← lookupBodyless .variant name scope), scope)

def visitEnumDecl (name : Option String) (visitContainer : Visit) (hasBody : Bool)
    (enumerators : List Enumerator) (scope : DeclScope) : Except VisitErr (Fc × DeclScope) := do
  if hasBody then
    checkNotDeclared .enum name scope
    let (containerFc, scope) ← visitContainer scope
    let fc ← enumFc enumerators containerFc
    let scope ← registerNamed .enum name fc scope
    return (fc, scope)
  else
    return (← lookupBodyless .enum name scope, scope)

mutual

/-- `visit_field_class_specifier_list()` -/
def visitSpec (env : Env) : Spec → Visit
  | .integer alignment info => fun scope => .ok (.int alignment info, scope)
  | .floatingPoint alignment byteOrder size => fun scope =>
    .ok (.float alignment byteOrder size, scope)
  | .string => fun scope => .ok (.string, scope)
  | .typeName name => fun scope => do return (← lookupBodyless .typeAlias (some name) scope, scope)
  | .struct name hasBody entries minAlign =>
    visitStructDecl name hasBody minAlign (visitEntries env entries)
  | .variant name tag hasBody entries =>
    visitVariantDecl name tag hasBody (visitEntries env entries)
  | .enum name container hasBody enumerators =>
    visitEnumDecl name (visitContainer env container) hasBody enumerators

def visitContainer (env : Env) : Option Spec → Visit
  | none => fun scope => do return (← lookupBodyless .typeAlias (some "int") scope, scope)
  | some spec => fun scope => (visitSpec env spec scope).mapError .cannotVisitContainer

/-- `visit_struct_decl_entry()` and `visit_variant_decl_entry()` -/
def visitEntry (env : Env) : Entry → VisitBody
  | .typedef spec declarators => fun body scope => do
    let scope ← (visitFieldClassDef env spec.listName (visitSpec env spec) declarators
      scope).mapError (.cannotAddClass body.kind)
    return (body, scope)
  | .typealias spec declarator id aliasName => fun body scope => do
    let scope ← (visitFieldClassAlias env spec.listName (visitSpec env spec) declarator id aliasName
      scope).mapError (.cannotAddClass body.kind)
    return (body, scope)
  | .field spec declarators =>
    visitDeclField env spec.listName (visitSpec env spec) declarators

def visitEntries (env : Env) : List Entry → VisitBody
  | [] => fun body scope => .ok (body, scope)
  | entry :: entries => fun body scope => do
    let (body, scope) ← (visitEntry env entry body scope).mapError (.cannotVisitEntry body.kind)
    visitEntries env entries body scope

end

/-! ## The fields of a body -/

def declFields (env : Env) (listName : Option String) (visit : Visit) :
    List (String × Declarator) → DeclScope → List (String × Fc) × Except VisitErr DeclScope
  | [], scope => ([], .ok scope)
  | (fieldName, declarator) :: declarators, scope =>
    match visitFieldClassDeclarator env listName visit declarator scope with
    | .error err => ([], .error (.cannotVisitDeclarator err))
    | .ok (fc, scope) =>
      let rest := declFields env listName visit declarators scope
      ((fieldName, fc) :: rest.1, rest.2)

def entryFields (env : Env) (kind : CompoundKind) (scope : DeclScope) :
    Entry → List (String × Fc) × Except VisitErr DeclScope
  | .typedef spec declarators =>
    ([], (visitFieldClassDef env spec.listName (visitSpec env spec) declarators scope).mapError
      (.cannotAddClass kind))
  | .typealias spec declarator id aliasName =>
    ([], (visitFieldClassAlias env spec.listName (visitSpec env spec) declarator id aliasName
      scope).mapError (.cannotAddClass kind))
  | .field spec declarators => declFields env spec.listName (visitSpec env spec) declarators scope

/-- Up to an error which isn't about the names -/
def bodyFields (env : Env) (kind : CompoundKind) :
    List Entry → DeclScope → List (String × Fc) × Except VisitErr DeclScope
  | [], scope => ([], .ok scope)
  | entry :: entries, scope =>
    match entryFields env kind scope entry with
    | (fields, .error err) => (fields, .error (.cannotVisitEntry kind err))
    | (fields, .ok scope) =>
      let rest := bodyFields env kind entries scope
      (fields ++ rest.1, rest.2)

def appendFields : List (String × Fc) → Body → Except VisitErr Body
  | [], body => .ok body
  | (fieldName, fc) :: fields, body =>
    if body.hasName fieldName then .error (.duplicateField body.kind fieldName)
    else appendFields fields (body.append fieldName fc)

theorem appendFields_append (fields fields' : List (String × Fc)) (body : Body) :
    appendFields (fields ++ fields') body = appendFields fields body >>= appendFields fields' := by
  induction fields generalizing body with
  | nil => rfl
  | cons field fields ih =>
    rw [List.cons_append, appendFields, appendFields]
    split
    · rfl
    · exact ih _

theorem kind_of_appendFields {fields : List (String × Fc)} {body body' : Body}
    (h : appendFields fields body = .ok body') : body'.kind = body.kind := by
  induction fields generalizing body with
  | nil =>
    cases h
    rfl
  | cons field fields ih =>
    rw [appendFields] at h
    split at h
    · cases h
    · have hkind := ih h
      exact hkind

theorem visitDeclField_eq (env : Env) (listName : Option String) (visit : Visit)
    (declarators : List (String × Declarator)) (body : Body) (scope : DeclScope) :
    visitDeclField env listName visit declarators body scope = do
      let body ← appendFields (declFields env listName visit declarators scope).1 body
      let scope ← (declFields env listName visit declarators scope).2
      return (body, scope) := by
  induction declarators generalizing body scope with
  | nil => rfl
  | cons declarator declarators ih =>
    obtain ⟨fieldName, declarator⟩ := declarator
    rw [visitDeclField, declFields]
    cases h : visitFieldClassDeclarator env listName visit declarator scope with
    | error err => rfl
    | ok res =>
      obtain ⟨fc, scope'⟩ := res
      simp only [appendFields]
      by_cases hdup : body.hasName fieldName = true
      · simp only [hdup, if_true]
        rfl
      · simp only [hdup]
        exact ih _ _

theorem visitEntry_eq (env : Env) (entry : Entry) (body : Body) (scope : DeclScope) :
    visitEntry env entry body scope = do
      let body' ← appendFields (entryFields env body.kind scope entry).1 body
      let scope ← (entryFields env body.kind scope entry).2
      return (body', scope) := by
  cases entry with
  | typedef spec declarators => simp only [visitEntry, entryFields, appendFields]; rfl
  | typealias spec declarator id aliasName =>
    simp only [visitEntry, entryFields, appendFields]
    rfl
  | field spec declarators =>
    simp only [visitEntry, entryFields]
    exact visitDeclField_eq ..

theorem visitEntries_eq (env : Env) (entries : List Entry) (body : Body) (scope : DeclScope) :
    visitEntries env entries body scope = do
      let body' ← (appendFields (bodyFields env body.kind entries scope).1 body).mapError
        (.cannotVisitEntry body.kind)
      let scope ← (bodyFields env body.kind entries scope).2
      return (body', scope) := by
  induction entries generalizing body scope with
  | nil => simp only [visitEntries, bodyFields, appendFields]; rfl
  | cons entry entries ih =>
    simp only [visitEntries, bodyFields, visitEntry_eq]
    obtain ⟨fields, res⟩ := entryFields env body.kind scope entry
    cases happ : appendFields fields body with
    | error err =>
      cases res with
      | error err' => simp only [happ]; rfl
      | ok scope' => simp only [appendFields_append, happ]; rfl
    | ok body' =>
      cases res with
      | error err' => simp only [happ]; rfl
      | ok scope' =>
        have hrest := ih body' scope'
        rw [kind_of_appendFields happ] at hrest
        simp only [appendFields_append, happ]
        exact hrest

end Babeltrace.CtfMeta
