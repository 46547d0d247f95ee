import Mathlib
import Babeltrace.Program

/-!
# Validation of component parameters

`bt_param_validation_validate()` (`param-validation.c`) checks a map value against a table of
descriptors, which may refer to themselves: `D` is the type of the references. The text of the first
error names the current scope.
-/
namespace Babeltrace.ParamValidation
open Program
open scoped List

/-- `bt_value_type`: the types which a value may have -/
inductive ValueType
  | null
  | bool
  | unsignedInteger
  | signedInteger
  | real
  | string
  | array
  | map
  deriving DecidableEq, Repr

/-- `bt_common_value_type_string()` -/
def ValueType.text : ValueType → String
  | null => "NULL"
  | bool => "BOOL"
  | unsignedInteger => "UNSIGNED_INTEGER"
  | signedInteger => "SIGNED_INTEGER"
  | real => "REAL"
  | string => "STRING"
  | array => "ARRAY"
  | map => "MAP"

/-- The entries of a map value are in the order in which one iterates its hash table, and a real
value is the one of those bits. -/
inductive Value
  | null
  | bool (value : Int32)
  | unsignedInteger (value : UInt64)
  | signedInteger (value : Int64)
  | real (bits : UInt64)
  | string (str : String)
  | array (elems : List Value)
  | map (entries : List (String × Value))

/-- `bt_value_get_type()` -/
def Value.type : Value → ValueType
  | .null => .null
  | .bool _ => .bool
  | .unsignedInteger _ => .unsignedInteger
  | .signedInteger _ => .signedInteger
  | .real _ => .real
  | .string _ => .string
  | .array _ => .array
  | .map _ => .map

/-- The keys of each map value within a value are distinct. -/
inductive Value.Valid : Value → Prop
  | scalar {value : Value} (harray : value.type ≠ .array) (hmap : value.type ≠ .map) : Valid value
  | array {elems : List Value} (h : ∀ elem ∈ elems, Valid elem) : Valid (.array elems)
  | map {entries : List (String × Value)} (hkeys : (entries.map Prod.fst).Nodup)
    (h : ∀ entry ∈ entries, Valid entry.2) : Valid (.map entries)

/-- `bt_param_validation_map_value_entry_descr` -/
structure EntryDescr (D : Type) where
  key : String
  isOptional : Bool
  valueDescr : D

inductive Checks (D : Type)
  | map (entries : List (EntryDescr D))
  | array (minLength maxLength : UInt64) (elementType : D)
  | string (choices : Option (List String))
  | null
  | bool
  | unsignedInteger
  | signedInteger
  | real

def Checks.type {D : Type} : Checks D → ValueType
  | .map _ => .map
  | .array .. => .array
  | .string _ => .string
  | .null => .null
  | .bool => .bool
  | .unsignedInteger => .unsignedInteger
  | .signedInteger => .signedInteger
  | .real => .real

/-- A validation function must call `bt_param_validation_error()`, with the given message, when it
fails. -/
structure ValueDescr (D : Type) where
  checks : Checks D
  validationFunc : Option (Value → Option String) := none

/-- `validate_ctx_stack_element` -/
inductive Scope
  | map (keyName : String)
  | array (index : ℕ)
  deriving DecidableEq, Repr

/-- `bt_param_validation_context`; the top of the stack is the last element. -/
structure Ctx where
  error : Option String := none
  scopeStack : List Scope := []
  deriving DecidableEq, Repr

/-- `bt_param_validation_status`, without memory errors -/
inductive Status
  | ok
  | validationError
  deriving DecidableEq, Repr

inductive Abort
  | assertion
  deriving DecidableEq, Repr

abbrev Validation := EStateM Abort Ctx

def btAssert (cond : Bool) : Validation Unit := if cond then pure () else throw .assertion

/-- `validate_ctx_push_map_scope()` and `validate_ctx_push_array_scope()` -/
def pushScope (scope : Scope) : Validation Unit :=
  modify fun ctx => { ctx with scopeStack := ctx.scopeStack ++ [scope] }

def popScope : Validation Unit := do
  btAssert !(← get).scopeStack.isEmpty
  modify fun ctx => { ctx with scopeStack := ctx.scopeStack.dropLast }

/-- `append_scope_to_string()` -/
def Scope.text (first : Bool) : Scope → String
  | .map keyName => (if first then "" else ".") ++ keyName
  | .array index => "[" ++ index.repr ++ "]"

def errorText (path : List Scope) (msg : String) : String :=
  match path with
  | [] => "Error validating parameters: " ++ msg
  | scope :: scopes =>
    "Error validating parameter `" ++ scope.text true ++
      String.join (scopes.map (Scope.text false)) ++ "`: " ++ msg

/-- `bt_param_validation_error()` -/
def validationError (msg : String) : Validation Status := do
  modify fun ctx => { ctx with error := some (errorText ctx.scopeStack msg) }
  return .validationError

/-- The last element takes the place of the removed one. -/
def removeIndexFast {α : Type} (xs : List α) (i : ℕ) : List α :=
  match xs.getLast? with
  | some last => (xs.set i last).dropLast
  | none => xs

def validateStringValue (choices : Option (List String)) (str : String) : Validation Status :=
  match choices with
  | none => return .ok
  | some choices =>
    if str ∈ choices then return .ok
    else validationError ("string is not amongst the available choices: string=" ++ str ++
      ", choices=[" ++ ", ".intercalate choices ++ "]")

/-- The part of `validate_map_value()` after the iteration: the keys which are still available are
the ones of optional entries. -/
def validateMissingKeys {D : Type} : List (EntryDescr D) → Validation Status
  | [] => return .ok
  | entry :: entries =>
    if entry.isOptional then validateMissingKeys entries
    else validationError ("missing mandatory entry `" ++ entry.key ++ "`")

/-- The search of `validate_map_value_entry()` -/
def findAvailableKey {D : Type} (key : String) : List (EntryDescr D) → Option (ℕ × EntryDescr D)
  | [] => none
  | candidate :: availableKeys =>
    if candidate.key = key then some (0, candidate)
    else (findAvailableKey key availableKeys).map fun (i, entry) => (i + 1, entry)

/-- `foreachEntry` tells whether or not it was interrupted, the last status, and the keys which are
still available. -/
def validateMapValue {D : Type} (foreachEntry : Validation (Bool × Status × List (EntryDescr D))) :
    Validation Status := do
  let (interrupted, status, availableKeys) ← foreachEntry
  if interrupted then
    btAssert (status ≠ .ok)
    return status
  else
    btAssert (status = .ok)
    validateMissingKeys availableKeys

/-- `validate_value()` for a descriptor which has a validation function -/
def validateCustom (func : Value → Option String) (value : Value) : Validation Status := do
  let status ← match func value with
    | none => pure Status.ok
    | some msg => validationError msg
  if status = .validationError then btAssert (← get).error.isSome
  return status

section

variable {D : Type} (descrs : D → ValueDescr D)

mutual

def validateValue (value : Value) (descr : ValueDescr D) : Validation Status :=
  match descr.validationFunc with
  | some func => validateCustom func value
  | none =>
    if value.type ≠ descr.checks.type then
      validationError ("unexpected type: expected-type=" ++ descr.checks.type.text ++
        ", actual-type=" ++ value.type.text)
    else
      match value, descr.checks with
      | .map entries, .map entryDescrs =>
        validateMapValue (validateMapValueEntries entries entryDescrs)
      | .array elems, .array minLength maxLength elementType =>
        -- `validate_array_value()`
        if elems.length < minLength.toNat then
          validationError ("array is smaller than the minimum length: array-length=" ++
            elems.length.repr ++ ", min-length=" ++ minLength.toNat.repr)
        else if maxLength.toNat < elems.length then
          validationError ("array is larger than the maximum length: array-length=" ++
            elems.length.repr ++ ", max-length=" ++ maxLength.toNat.repr)
        else validateElems elems 0 (descrs elementType)
      | .string str, .string choices => validateStringValue choices str
      | _, _ => return .ok

/-- The iteration of `validate_map_value()`, with `validate_map_value_entry()` -/
def validateMapValueEntries :
    List (String × Value) → List (EntryDescr D) →
      Validation (Bool × Status × List (EntryDescr D))
  | [], availableKeys => return (false, .ok, availableKeys)
  | (key, value) :: entries, availableKeys =>
    match findAvailableKey key availableKeys with
    | some (i, entry) => do
      let availableKeys := removeIndexFast availableKeys i
      pushScope (.map key)
      let status ← validateValue value (descrs entry.valueDescr)
      popScope
      if status = .ok then validateMapValueEntries entries availableKeys
      else return (true, status, availableKeys)
    | none => do
      let status ← validationError ("unexpected key `" ++ key ++ "`.")
      return (true, status, availableKeys)

/-- The loop of `validate_array_value()` -/
def validateElems : List Value → ℕ → ValueDescr D → Validation Status
  | [], _, _ => return .ok
  | elem :: elems, i, descr => do
    pushScope (.array i)
    let status ← validateValue elem descr
    popScope
    if status = .ok then validateElems elems (i + 1) descr else return status

end

/-- `bt_param_validation_validate()` -/
def validate (params : Value) (entryDescrs : List (EntryDescr D)) : Validation Status :=
  match params with
  | .map entries => validateMapValue (validateMapValueEntries descrs entries entryDescrs)
  | _ => validationError "top-level is not a map value"

end

/-! ## Conformance -/

section

variable {D : Type} (descrs : D → ValueDescr D)

/-- The validation function of the descriptor or, without one, the described type and contents -/
inductive Conforms : Value → ValueDescr D → Prop
  | custom {value : Value} {descr : ValueDescr D} {func : Value → Option String}
    (hfunc : descr.validationFunc = some func) (hok : func value = none) : Conforms value descr
  | map {entries : List (String × Value)} {entryDescrs : List (EntryDescr D)}
    (hdescribed : ∀ entry ∈ entries, entry.1 ∈ entryDescrs.map EntryDescr.key)
    (hentries : ∀ entry ∈ entries, ∀ entryDescr ∈ entryDescrs, entryDescr.key = entry.1 →
      Conforms entry.2 (descrs entryDescr.valueDescr))
    (hmandatory : ∀ entryDescr ∈ entryDescrs, entryDescr.isOptional = false →
      entryDescr.key ∈ entries.map Prod.fst) :
    Conforms (.map entries) ⟨.map entryDescrs, none⟩
  | array {elems : List Value} {minLength maxLength : UInt64} {elementType : D}
    (hmin : minLength.toNat ≤ elems.length) (hmax : elems.length ≤ maxLength.toNat)
    (helems : ∀ elem ∈ elems, Conforms elem (descrs elementType)) :
    Conforms (.array elems) ⟨.array minLength maxLength elementType, none⟩
  | string {str : String} {choices : Option (List String)}
    (hchoices : ∀ choices' ∈ choices, str ∈ choices') :
    Conforms (.string str) ⟨.string choices, none⟩
  | null : Conforms .null ⟨.null, none⟩
  | bool (value : Int32) : Conforms (.bool value) ⟨.bool, none⟩
  | unsignedInteger (value : UInt64) : Conforms (.unsignedInteger value) ⟨.unsignedInteger, none⟩
  | signedInteger (value : Int64) : Conforms (.signedInteger value) ⟨.signedInteger, none⟩
  | real (bits : UInt64) : Conforms (.real bits) ⟨.real, none⟩

inductive At : Value → ValueDescr D → List Scope → Value → ValueDescr D → Prop
  | here (value : Value) (descr : ValueDescr D) : At value descr [] value descr
  | entry {entries : List (String × Value)} {entryDescrs : List (EntryDescr D)} {key : String}
    {value value' : Value} {entryDescr : EntryDescr D} {path : List Scope} {descr' : ValueDescr D}
    (hentry : (key, value) ∈ entries) (hdescr : entryDescr ∈ entryDescrs)
    (hkey : entryDescr.key = key)
    (h : At value (descrs entryDescr.valueDescr) path value' descr') :
    At (.map entries) ⟨.map entryDescrs, none⟩ (.map key :: path) value' descr'
  | elem {elems : List Value} {minLength maxLength : UInt64} {elementType : D} {i : ℕ}
    {value value' : Value} {path : List Scope} {descr' : ValueDescr D}
    (helem : elems[i]? = some value) (h : At value (descrs elementType) path value' descr') :
    At (.array elems) ⟨.array minLength maxLength elementType, none⟩ (.array i :: path) value'
      descr'

def ValueDescr.KeysNodup (descr : ValueDescr D) : Prop :=
  ∀ entryDescrs, descr.checks = .map entryDescrs → (entryDescrs.map EntryDescr.key).Nodup

variable {descrs} {value value' : Value} {descr descr' : ValueDescr D} {path : List Scope}

theorem Conforms.of_at (h : Conforms descrs value descr) (hat : At descrs value descr path value' descr') :
    Conforms descrs value' descr' := by
  induction hat with
  | here value descr => exact h
  | entry hentry hdescr hkey _ ih =>
    cases h with
    | custom hfunc _ => cases hfunc
    | map _ hentries _ => exact ih (hentries _ hentry _ hdescr hkey)
  | elem helem _ ih =>
    cases h with
    | custom hfunc _ => cases hfunc
    | array _ _ helems => exact ih (helems _ (List.mem_of_getElem? helem))

variable (descrs)

/-- A conforming value is accepted without changing the context; otherwise, the error is about
something at some path which doesn't conform. -/
def Validates (program : Validation Status) (value : Value) (descr : ValueDescr D) : Prop :=
  ∀ ctx, (Conforms descrs value descr ∧ program ctx = .ok .ok ctx) ∨
    ∃ path msg value' descr', At descrs value descr path value' descr' ∧
      ¬Conforms descrs value' descr' ∧ program ctx = .ok .validationError
        { ctx with error := some (errorText (ctx.scopeStack ++ path) msg) }

variable {descrs} {program : Validation Status} {checks : Checks D}
  {availableKeys : List (EntryDescr D)} {entryDescrs : List (EntryDescr D)}
  {entries : List (String × Value)} {elems : List Value} {key : String}
  {func : Value → Option String}

theorem Validates.of_conforms (h : Conforms descrs value descr)
    (hprogram : ∀ ctx, program ctx = .ok .ok ctx) : Validates descrs program value descr :=
  fun ctx => .inl ⟨h, hprogram ctx⟩

theorem Validates.of_not_conforms {msg : String} (h : ¬Conforms descrs value descr) :
    Validates descrs (validationError msg) value descr := by
  intro ctx
  refine .inr ⟨[], msg, value, descr, .here value descr, h, ?_⟩
  rw [List.append_nil]
  rfl

theorem validates_custom (hfunc : descr.validationFunc = some func) :
    Validates descrs (validateCustom func value) value descr := by
  cases hvalue : func value with
  | none =>
    refine .of_conforms (.custom hfunc hvalue) fun ctx => ?_
    simp [validateCustom, hvalue]
  | some msg =>
    have hnot : ¬Conforms descrs value descr := by
      rintro (⟨hfunc', hok⟩ | _)
      all_goals simp_all
    intro ctx
    refine .inr ⟨[], msg, value, descr, .here value descr, hnot, ?_⟩
    simp [validateCustom, hvalue, validationError, btAssert]

theorem within_scope {scope : Scope} {ctx ctx' : Ctx} {status : Status} {α : Type}
    {f : Status → Validation α}
    (h : program { ctx with scopeStack := ctx.scopeStack ++ [scope] } = .ok status ctx')
    (hstack : ctx'.scopeStack = ctx.scopeStack ++ [scope]) :
    (do
      pushScope scope
      let status ← program
      popScope
      f status : Validation α) ctx = f status { ctx' with scopeStack := ctx.scopeStack } := by
  simp [pushScope, popScope, btAssert, h, hstack]

theorem validateElems_spec
    (h : ∀ elem ∈ elems, Validates descrs (validateValue descrs elem descr) elem descr) (i : ℕ)
    (ctx : Ctx) :
    ((∀ elem ∈ elems, Conforms descrs elem descr) ∧
        validateElems descrs elems i descr ctx = .ok .ok ctx) ∨
      ∃ j elem path msg value' descr', elems[j]? = some elem ∧
        At descrs elem descr path value' descr' ∧ ¬Conforms descrs value' descr' ∧
        validateElems descrs elems i descr ctx = .ok .validationError
          { ctx with error := some (errorText (ctx.scopeStack ++ .array (i + j) :: path) msg) } := by
  induction elems generalizing i with
  | nil => exact .inl ⟨fun _ hmem => (List.not_mem_nil hmem).elim, rfl⟩
  | cons elem elems ih =>
    obtain ⟨helem, helems⟩ := List.forall_mem_cons.mp h
    rw [validateElems]
    rcases helem { ctx with scopeStack := ctx.scopeStack ++ [.array i] } with
      ⟨hconforms, hok⟩ | ⟨path, msg, value', descr', hat, hnot, herror⟩
    · rw [within_scope hok rfl]
      rcases ih helems (i + 1) with ⟨hall, hok'⟩ |
        ⟨j, elem', path, msg, value', descr', hget, hat, hnot, herror⟩
      · exact .inl ⟨List.forall_mem_cons.mpr ⟨hconforms, hall⟩, hok'⟩
      · refine .inr ⟨j + 1, elem', path, msg, value', descr', hget, hat, hnot, ?_⟩
        rw [Nat.add_assoc, Nat.add_comm 1] at herror
        exact herror
    · rw [within_scope herror rfl]
      refine .inr ⟨0, elem, path, msg, value', descr', rfl, hat, hnot, ?_⟩
      rw [Nat.add_zero, List.append_assoc]
      rfl

theorem removeIndexFast_perm {α : Type} {xs : List α} {i : ℕ} {x : α} (hx : xs[i]? = some x) :
    (x :: removeIndexFast xs i).Perm xs := by
  obtain ⟨hlt, hget⟩ := List.getElem?_eq_some_iff.mp hx
  have hxs : xs = xs.take i ++ x :: xs.drop (i + 1) := by
    rw [← hget, List.getElem_cons_drop, List.take_append_drop]
  have hlen : (xs.take i).length = i := List.length_take_of_le (Nat.le_of_lt hlt)
  generalize xs.take i = before at hxs hlen
  generalize xs.drop (i + 1) = after at hxs
  subst hxs hlen
  unfold removeIndexFast
  rcases List.eq_nil_or_concat after with rfl | ⟨after', last, rfl⟩
  · simpa using (List.perm_append_singleton x before).symm
  · have hlast : (before ++ x :: (after' ++ [last])).getLast? = some last := by
      rw [← List.cons_append, ← List.append_assoc, List.getLast?_concat]
    have hset : (before ++ x :: (after' ++ [last])).set before.length last =
        before ++ last :: after' ++ [last] := by simp
    rw [List.concat_eq_append, hlast]
    dsimp only
    rw [hset, List.dropLast_concat]
    calc x :: (before ++ last :: after')
        _ ~ before ++ x :: last :: after' := List.perm_middle.symm
        _ ~ before ++ x :: (after' ++ [last]) :=
          (((List.perm_append_singleton last after').symm).cons x).append_left before

theorem findAvailableKey_eq_some {i : ℕ} {entry : EntryDescr D}
    (h : findAvailableKey key availableKeys = some (i, entry)) :
    availableKeys[i]? = some entry ∧ entry.key = key := by
  induction availableKeys generalizing i with
  | nil => cases h
  | cons candidate availableKeys ih =>
    unfold findAvailableKey at h
    split at h
    · rename_i hkey
      cases h
      exact ⟨rfl, hkey⟩
    · obtain ⟨⟨j, entry'⟩, hfind, heq⟩ := Option.map_eq_some_iff.mp h
      cases heq
      exact ih hfind

theorem findAvailableKey_eq_none (h : findAvailableKey key availableKeys = none) :
    key ∉ availableKeys.map EntryDescr.key := by
  induction availableKeys with
  | nil => exact List.not_mem_nil
  | cons candidate availableKeys ih =>
    unfold findAvailableKey at h
    split at h
    · cases h
    · rename_i hkey
      rw [List.map_cons, List.mem_cons, not_or]
      exact ⟨fun heq => hkey heq.symm, ih (Option.map_eq_none_iff.mp h)⟩

theorem validateMapValueEntries_spec
    (h : ∀ entry ∈ entries, ∀ d, Validates descrs (validateValue descrs entry.2 (descrs d)) entry.2 (descrs d))
    (hkeys : (entries.map Prod.fst).Nodup) (havailable : (availableKeys.map EntryDescr.key).Nodup)
    (ctx : Ctx) :
    (∃ availableKeys',
        (∀ entry ∈ entries, entry.1 ∈ availableKeys.map EntryDescr.key) ∧
        (∀ entry ∈ entries, ∀ entryDescr ∈ availableKeys, entryDescr.key = entry.1 →
          Conforms descrs entry.2 (descrs entryDescr.valueDescr)) ∧
        (∀ entryDescr, entryDescr ∈ availableKeys' ↔
          entryDescr ∈ availableKeys ∧ entryDescr.key ∉ entries.map Prod.fst) ∧
        validateMapValueEntries descrs entries availableKeys ctx =
          .ok (false, .ok, availableKeys') ctx) ∨
      (∃ availableKeys' msg, (∃ entry ∈ entries, entry.1 ∉ availableKeys.map EntryDescr.key) ∧
        validateMapValueEntries descrs entries availableKeys ctx =
          .ok (true, .validationError, availableKeys')
            { ctx with error := some (errorText ctx.scopeStack msg) }) ∨
      ∃ availableKeys' key value, ∃ entryDescr ∈ availableKeys, ∃ path msg value' descr',
        (key, value) ∈ entries ∧ entryDescr.key = key ∧
        At descrs value (descrs entryDescr.valueDescr) path value' descr' ∧
        ¬Conforms descrs value' descr' ∧
        validateMapValueEntries descrs entries availableKeys ctx =
          .ok (true, .validationError, availableKeys')
            { ctx with error := some (errorText (ctx.scopeStack ++ .map key :: path) msg) } := by
  induction entries generalizing availableKeys with
  | nil =>
    refine .inl ⟨availableKeys, fun _ hmem => (List.not_mem_nil hmem).elim,
      fun _ hmem => (List.not_mem_nil hmem).elim, fun entryDescr => ?_, rfl⟩
    simp
  | cons entry entries ih =>
    obtain ⟨key, value⟩ := entry
    obtain ⟨hentry, hentries⟩ := List.forall_mem_cons.mp h
    obtain ⟨hnotMem, hnodup⟩ := List.nodup_cons.mp hkeys
    rw [validateMapValueEntries]
    cases hfind : findAvailableKey key availableKeys with
    | none =>
      refine .inr (.inl ⟨availableKeys, "unexpected key `" ++ key ++ "`.",
        ⟨_, List.mem_cons_self, findAvailableKey_eq_none hfind⟩, ?_⟩)
      rfl
    | some found =>
      obtain ⟨i, entryDescr⟩ := found
      obtain ⟨hget, hkey⟩ := findAvailableKey_eq_some hfind
      have hperm := removeIndexFast_perm hget
      dsimp only
      generalize removeIndexFast availableKeys i = rest at hperm ⊢
      have hmem (e : EntryDescr D) : e ∈ availableKeys ↔ e = entryDescr ∨ e ∈ rest := by
        rw [← hperm.mem_iff, List.mem_cons]
      have hrest : (rest.map EntryDescr.key).Nodup ∧ key ∉ rest.map EntryDescr.key := by
        have hnodup' := (hperm.map EntryDescr.key).nodup_iff.mpr havailable
        rw [List.map_cons, List.nodup_cons, hkey] at hnodup'
        exact ⟨hnodup'.2, hnodup'.1⟩
      have hne {entry : String × Value} (hentry : entry ∈ entries) : entry.1 ≠ key :=
        fun heq => hnotMem (List.mem_map.mpr ⟨entry, hentry, heq⟩)
      have hother {entry : String × Value} (hentry : entry ∈ entries) :
          entry.1 ∈ rest.map EntryDescr.key ↔ entry.1 ∈ availableKeys.map EntryDescr.key := by
        rw [← (hperm.map EntryDescr.key).mem_iff, List.map_cons, List.mem_cons, hkey,
          or_iff_right (hne hentry)]
      rcases hentry entryDescr.valueDescr
        { ctx with scopeStack := ctx.scopeStack ++ [.map key] } with
        ⟨hconforms, hok⟩ | ⟨path, msg, value', descr', hat, hnot, herror⟩
      · rw [within_scope hok rfl]
        rcases ih hentries hnodup hrest.1 with ⟨availableKeys', hdescribed, hall, hremain, hok'⟩ |
          ⟨availableKeys', msg, ⟨entry, hentry, hunexpected⟩, herror⟩ |
          ⟨availableKeys', key', value₁, entryDescr', hdescr', path, msg, value', descr', hentry,
            hkey', hat, hnot, herror⟩
        · refine .inl ⟨availableKeys', ?_, ?_, ?_, hok'⟩
          · rw [List.forall_mem_cons]
            exact ⟨List.mem_map.mpr ⟨entryDescr, (hmem _).mpr (.inl rfl), hkey⟩,
              fun entry hentry => (hother hentry).mp (hdescribed entry hentry)⟩
          · rw [List.forall_mem_cons]
            constructor
            · intro e he hkey'
              rcases (hmem e).mp he with rfl | he
              · exact hconforms
              · exact absurd (List.mem_map.mpr ⟨e, he, hkey'⟩) hrest.2
            · intro entry hentry e he hkey'
              rcases (hmem e).mp he with rfl | he
              · exact absurd (hkey'.symm.trans hkey) (hne hentry)
              · exact hall entry hentry e he hkey'
          · intro e
            rw [hremain, hmem, List.map_cons, List.mem_cons, not_or]
            constructor
            · rintro ⟨he, hnotMem'⟩
              exact ⟨.inr he, fun heq => hrest.2 (List.mem_map.mpr ⟨e, he, heq⟩), hnotMem'⟩
            · rintro ⟨rfl | he, hne', hnotMem'⟩
              · exact absurd hkey hne'
              · exact ⟨he, hnotMem'⟩
        · exact .inr (.inl ⟨availableKeys', msg, ⟨entry, List.mem_cons_of_mem _ hentry,
            fun hmem' => hunexpected ((hother hentry).mpr hmem')⟩, herror⟩)
        · exact .inr (.inr ⟨availableKeys', key', value₁, entryDescr', (hmem _).mpr (.inr hdescr'),
            path, msg, value', descr', List.mem_cons_of_mem _ hentry, hkey', hat, hnot, herror⟩)
      · rw [within_scope herror rfl]
        refine .inr (.inr ⟨rest, key, value, entryDescr, (hmem _).mpr (.inl rfl), path, msg, value',
          descr', List.mem_cons_self, hkey, hat, hnot, ?_⟩)
        rw [List.append_assoc]
        rfl

theorem validateMissingKeys_spec (availableKeys : List (EntryDescr D)) (ctx : Ctx) :
    ((∀ entryDescr ∈ availableKeys, entryDescr.isOptional = true) ∧
        validateMissingKeys availableKeys ctx = .ok .ok ctx) ∨
      ∃ entryDescr ∈ availableKeys, entryDescr.isOptional = false ∧ ∃ msg,
        validateMissingKeys availableKeys ctx = .ok .validationError
          { ctx with error := some (errorText ctx.scopeStack msg) } := by
  induction availableKeys with
  | nil => exact .inl ⟨fun _ hmem => (List.not_mem_nil hmem).elim, rfl⟩
  | cons entryDescr availableKeys ih =>
    unfold validateMissingKeys
    cases hoptional : entryDescr.isOptional with
    | false => exact .inr ⟨entryDescr, List.mem_cons_self, hoptional, _, rfl⟩
    | true =>
      rcases ih with ⟨hall, hok⟩ | ⟨entryDescr', hmem, hmandatory, msg, herror⟩
      · exact .inl ⟨List.forall_mem_cons.mpr ⟨hoptional, hall⟩, hok⟩
      · exact .inr ⟨entryDescr', List.mem_cons_of_mem _ hmem, hmandatory, msg, herror⟩

theorem validates_map
    (h : ∀ entry ∈ entries, ∀ d, Validates descrs (validateValue descrs entry.2 (descrs d)) entry.2 (descrs d))
    (hkeys : (entries.map Prod.fst).Nodup) (hdescr : (entryDescrs.map EntryDescr.key).Nodup) :
    Validates descrs (validateMapValue (validateMapValueEntries descrs entries entryDescrs))
      (.map entries) ⟨.map entryDescrs, none⟩ := by
  intro ctx
  unfold validateMapValue
  rcases validateMapValueEntries_spec h hkeys hdescr ctx with
    ⟨availableKeys, hdescribed, hall, hremain, hok⟩ |
    ⟨availableKeys, msg, ⟨entry, hentry, hunexpected⟩, herror⟩ |
    ⟨availableKeys, key, value, entryDescr, hmem, path, msg, value', descr', hentry, hkey, hat,
      hnot, herror⟩
  · rcases validateMissingKeys_spec availableKeys ctx with
      ⟨hoptional, hok'⟩ | ⟨entryDescr, hmem, hmandatory, msg, herror⟩
    · refine .inl ⟨.map hdescribed hall fun entryDescr hmem hmandatory => ?_, ?_⟩
      · by_contra hmissing
        have hoptional' := hoptional entryDescr ((hremain entryDescr).mpr ⟨hmem, hmissing⟩)
        exact Bool.false_ne_true (hmandatory.symm.trans hoptional')
      · simpa [hok, btAssert] using hok'
    · obtain ⟨hmem, hmissing⟩ := (hremain entryDescr).mp hmem
      refine .inr ⟨[], msg, _, _, .here _ _, ?_, ?_⟩
      · rintro (⟨⟨⟩, -⟩ | ⟨-, -, hmandatory'⟩)
        exact hmissing (hmandatory' entryDescr hmem hmandatory)
      · rw [List.append_nil]
        simpa [hok, btAssert] using herror
  · refine .inr ⟨[], msg, _, _, .here _ _, ?_, ?_⟩
    · rintro (⟨⟨⟩, -⟩ | ⟨hdescribed, -, -⟩)
      exact hunexpected (hdescribed entry hentry)
    · rw [List.append_nil]
      simp [herror, btAssert]
  · refine .inr ⟨_, msg, value', descr', .entry hentry hmem hkey hat, hnot, ?_⟩
    simp [herror, btAssert]

theorem Conforms.type_eq (h : Conforms descrs value ⟨checks, none⟩) : value.type = checks.type := by
  cases h with
  | custom hfunc _ => cases hfunc
  | _ => rfl

theorem validates_array {minLength maxLength : UInt64} {elementType : D}
    (h : ∀ elem ∈ elems, Validates descrs (validateValue descrs elem (descrs elementType)) elem
      (descrs elementType)) :
    Validates descrs (validateValue descrs (.array elems)
        ⟨.array minLength maxLength elementType, none⟩)
      (.array elems) ⟨.array minLength maxLength elementType, none⟩ := by
  simp only [validateValue, Value.type, Checks.type, ne_eq, not_true_eq_false, if_false]
  split
  · rename_i hmin
    refine .of_not_conforms ?_
    rintro (⟨⟨⟩, -⟩ | - | ⟨hmin', -, -⟩)
    omega
  · rename_i hmin
    split
    · rename_i hmax
      refine .of_not_conforms ?_
      rintro (⟨⟨⟩, -⟩ | - | ⟨-, hmax', -⟩)
      omega
    · rename_i hmax
      intro ctx
      rcases validateElems_spec h 0 ctx with
        ⟨hall, hok⟩ | ⟨i, elem, path, msg, value', descr', hget, hat, hnot, herror⟩
      · exact .inl ⟨.array (by omega) (by omega) hall, hok⟩
      · rw [Nat.zero_add] at herror
        exact .inr ⟨_, msg, value', descr', .elem hget hat, hnot, herror⟩

theorem validates_string {str : String} {choices : Option (List String)} :
    Validates descrs (validateStringValue choices str) (.string str) ⟨.string choices, none⟩ := by
  unfold validateStringValue
  cases choices with
  | none => exact .of_conforms (.string nofun) fun ctx => rfl
  | some choices =>
    dsimp only
    split
    · rename_i hmem
      refine .of_conforms (.string ?_) fun ctx => rfl
      rintro _ ⟨⟩
      exact hmem
    · rename_i hmem
      refine .of_not_conforms ?_
      rintro (⟨⟨⟩, -⟩ | - | - | ⟨hchoices⟩)
      exact hmem (hchoices choices rfl)

theorem validates_of_func :
    Validates descrs (validateValue descrs value ⟨checks, some func⟩) value
      ⟨checks, some func⟩ := by
  have heq : validateValue descrs value ⟨checks, some func⟩ = validateCustom func value := by
    rw [validateValue.eq_def]
  rw [heq]
  exact validates_custom rfl

theorem validates_of_type_ne (htype : value.type ≠ checks.type) :
    Validates descrs (validateValue descrs value ⟨checks, none⟩) value ⟨checks, none⟩ := by
  have heq : validateValue descrs value ⟨checks, none⟩ =
      validationError ("unexpected type: expected-type=" ++ checks.type.text ++
        ", actual-type=" ++ value.type.text) := by
    rw [validateValue.eq_def]
    exact if_pos htype
  rw [heq]
  exact .of_not_conforms fun h => htype h.type_eq

theorem validates_scalar (harray : value.type ≠ .array) (hmap : value.type ≠ .map)
    (htype : value.type = checks.type) :
    Validates descrs (validateValue descrs value ⟨checks, none⟩) value ⟨checks, none⟩ :=
  match value, checks, htype with
  | .null, .null, _ => .of_conforms .null fun _ => rfl
  | .bool value, .bool, _ => .of_conforms (.bool value) fun _ => rfl
  | .unsignedInteger value, .unsignedInteger, _ =>
    .of_conforms (.unsignedInteger value) fun _ => rfl
  | .signedInteger value, .signedInteger, _ => .of_conforms (.signedInteger value) fun _ => rfl
  | .real bits, .real, _ => .of_conforms (.real bits) fun _ => rfl
  | .string _, .string _, _ => validates_string
  | .array _, .array .., _ => absurd rfl harray
  | .map _, .map _, _ => absurd rfl hmap

theorem validates_value (hdescrs : ∀ d, (descrs d).KeysNodup) (hvalue : value.Valid)
    (hdescr : descr.KeysNodup) :
    Validates descrs (validateValue descrs value descr) value descr := by
  induction hvalue generalizing descr with
  | @scalar value harray hmap =>
    obtain ⟨checks, _ | func⟩ := descr
    · by_cases htype : value.type = checks.type
      · exact validates_scalar harray hmap htype
      · exact validates_of_type_ne htype
    · exact validates_of_func
  | @array elems _ ih =>
    obtain ⟨checks, _ | func⟩ := descr
    · by_cases htype : (Value.array elems).type = checks.type
      · cases checks <;> try cases htype
        exact validates_array fun elem hmem => ih elem hmem (hdescrs _)
      · exact validates_of_type_ne htype
    · exact validates_of_func
  | @map entries hkeys _ ih =>
    obtain ⟨checks, _ | func⟩ := descr
    · by_cases htype : (Value.map entries).type = checks.type
      · cases checks <;> try cases htype
        rename_i entryDescrs
        have hmap := validates_map (fun entry hmem d => ih entry hmem (hdescrs d)) hkeys
          (hdescr entryDescrs rfl)
        simpa only [validateValue, Value.type, Checks.type, ne_eq, not_true_eq_false, if_false]
          using hmap
      · exact validates_of_type_ne htype
    · exact validates_of_func

/-- The validation never aborts and leaves no scope. It succeeds exactly if the parameters are a map
value which conforms; otherwise, its error is about the path of a value which doesn't conform. -/
theorem validate_spec {params : Value} (hdescrs : ∀ d, (descrs d).KeysNodup)
    (hentries : (entryDescrs.map EntryDescr.key).Nodup) (hparams : params.Valid) :
    ∃ status error, validate descrs params entryDescrs {} = .ok status ⟨error, []⟩ ∧
      (status = .ok ↔ Conforms descrs params ⟨.map entryDescrs, none⟩) ∧
      (status = .ok → error = none) ∧
      (status = .validationError → ∃ path msg value descr, error = some (errorText path msg) ∧
        At descrs params ⟨.map entryDescrs, none⟩ path value descr ∧
        ¬Conforms descrs value descr) := by
  have hvalidates : Validates descrs (validate descrs params entryDescrs) params
      ⟨.map entryDescrs, none⟩ := by
    cases params with
    | map entries =>
      cases hparams with
      | scalar _ hmap => exact absurd rfl hmap
      | map hkeys h =>
        exact validates_map (fun entry hmem d => validates_value hdescrs (h entry hmem) (hdescrs d))
          hkeys hentries
    | _ => exact .of_not_conforms fun h => by cases h.type_eq
  rcases hvalidates {} with ⟨hconforms, hok⟩ | ⟨path, msg, value, descr, hat, hnot, herror⟩
  · exact ⟨.ok, none, hok, iff_of_true rfl hconforms, fun _ => rfl, nofun⟩
  · exact ⟨.validationError, _, herror, iff_of_false nofun fun h => hnot (h.of_at hat), nofun,
      fun _ => ⟨path, msg, value, descr, rfl, hat, hnot⟩⟩

end

def inputsDescrs : Bool → ValueDescr Bool
  | false => ⟨.array 1 0xffffffffffffffff true, none⟩
  | true => ⟨.string none, none⟩

theorem validate_inputs :
    ∃ status error, validate inputsDescrs
        (.map [("inputs", .array [.string "/trace", .signedInteger 23])])
        [⟨"inputs", false, false⟩] {} = .ok status ⟨error, []⟩ ∧
      (status = .ok ↔ Conforms inputsDescrs
        (.map [("inputs", .array [.string "/trace", .signedInteger 23])])
        ⟨.map [⟨"inputs", false, false⟩], none⟩) := by
  have hdescrs (d : Bool) : (inputsDescrs d).KeysNodup := by
    cases d <;> rintro _ ⟨⟩
  have hparams : (Value.map [("inputs", .array [.string "/trace", .signedInteger 23])]).Valid := by
    refine .map (List.nodup_singleton _) fun entry hmem => ?_
    cases List.mem_singleton.mp hmem
    refine .array fun elem hmem => ?_
    rcases List.mem_pair.mp hmem with rfl | rfl
    · exact .scalar nofun nofun
    · exact .scalar nofun nofun
  have hentries : ([⟨"inputs", false, false⟩].map (EntryDescr.key (D := Bool))).Nodup :=
    List.nodup_singleton _
  obtain ⟨status, error, hvalidate, hstatus, -⟩ := validate_spec hdescrs hentries hparams
  exact ⟨status, error, hvalidate, hstatus⟩

end Babeltrace.ParamValidation
