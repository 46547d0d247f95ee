import Babeltrace.CLib

/-!
# Parsing command-line parameters

`bt_param_parse()` (`param-parse.c`) and the grammar of a `--params` argument. A token is what the
scanner of GLib gives; the end of the list is `G_TOKEN_EOF`. Real numbers are of any type which has
a negation.
-/
namespace Babeltrace.ParamParse

/-- Values; a map value is a hash table, without an order. -/
inductive Value (ρ : Type)
  | null
  | bool (value : Bool)
  | unsignedInteger (value : UInt64)
  | signedInteger (value : Int64)
  | real (value : ρ)
  | string (str : String)
  | array (elems : List (Value ρ))
  | map (entries : String → Option (Value ρ))

inductive Token (ρ : Type)
  | char (ch : Char)
  | int (val : UInt64)
  | float (val : ρ)
  | string (str : String)
  | identifier (id : String)
  /-- `G_TOKEN_ERROR` and the other types -/
  | other

inductive Error
  | expecting (what : String)
  | outside (isNegative : Bool) (val : UInt64)
  | outOfFuel

section
variable {ρ : Type} [Neg ρ]

/-! ## Parser -/

/-- With the tokens which follow the current one -/
def iniParseUInt : List (Token ρ) → Except Error (Value ρ × List (Token ρ))
  | .int val :: rest => .ok (.unsignedInteger val, rest)
  | _ => .error (.expecting "integer value")

def iniParseNegNumber : List (Token ρ) → Except Error (Value ρ × List (Token ρ))
  | .int val :: rest =>
    if val > 9223372036854775807 + 1 then .error (.outside true val)
    else .ok (.signedInteger (-val.toInt64), rest)
  | .float val :: rest => .ok (.real (-val), rest)
  | _ => .error (.expecting "value")

/-- What `ini_parse_value()` makes of an identifier -/
def identifierValue (id : String) : Value ρ :=
  if id = "null" ∨ id = "NULL" ∨ id = "nul" then .null
  else if id = "true" ∨ id = "TRUE" ∨ id = "yes" ∨ id = "YES" then .bool true
  else if id = "false" ∨ id = "FALSE" ∨ id = "no" ∨ id = "NO" then .bool false
  else .string id

/-- `bt_value_map_insert_entry()` -/
def insertEntry (entries : String → Option (Value ρ)) (key : String) (value : Value ρ) :
    String → Option (Value ρ) :=
  Function.update entries key (some value)

mutual

/-- The value, and the tokens which follow its last one -/
def iniParseValue : ℕ → Token ρ → List (Token ρ) → Except Error (Value ρ × List (Token ρ))
  | 0, _, _ => .error .outOfFuel
  | fuel + 1, token, rest =>
    match token with
    | .char ch =>
      if ch = '-' then iniParseNegNumber rest
      else if ch = '+' then iniParseUInt rest
      else if ch = '[' then iniParseArray fuel [] rest
      else if ch = '{' then iniParseMap fuel (fun _ => none) rest
      else .error (.expecting "value")
    | .int val =>
      if val > 9223372036854775807 then .error (.outside false val)
      else .ok (.signedInteger val.toInt64, rest)
    | .float val => .ok (.real val, rest)
    | .string str => .ok (.string str, rest)
    | .identifier id => .ok (identifierValue id, rest)
    | .other => .error (.expecting "value")

/-- The loop of `ini_parse_array()`, from the current token on -/
def iniParseArray : ℕ → List (Value ρ) → List (Token ρ) → Except Error (Value ρ × List (Token ρ))
  | 0, _, _ => .error .outOfFuel
  | _ + 1, _, [] => .error (.expecting "value")
  | fuel + 1, elems, token :: rest =>
    match token with
    | .char ']' => .ok (.array elems, rest)
    | token =>
      match iniParseValue fuel token rest with
      | .error error => .error error
      | .ok (item, .char ',' :: rest) => iniParseArray fuel (elems ++ [item]) rest
      | .ok (item, .char ']' :: rest) => iniParseArray fuel (elems ++ [item]) (.char ']' :: rest)
      | .ok _ => .error (.expecting "`,` or `]`")

/-- The loop of `ini_parse_map()`, from the current token on -/
def iniParseMap : ℕ → (String → Option (Value ρ)) → List (Token ρ) →
    Except Error (Value ρ × List (Token ρ))
  | 0, _, _ => .error .outOfFuel
  | fuel + 1, entries, tokens =>
    match tokens with
    | .char '}' :: rest => .ok (.map entries, rest)
    | .identifier key :: .char '=' :: token :: rest =>
      match iniParseValue fuel token rest with
      | .error error => .error error
      | .ok (value, .char ',' :: rest) => iniParseMap fuel (insertEntry entries key value) rest
      | .ok (value, .char '}' :: rest) =>
        iniParseMap fuel (insertEntry entries key value) (.char '}' :: rest)
      | .ok _ => .error (.expecting "`,` or `\x7d`")
    | .identifier _ :: .char '=' :: [] => .error (.expecting "value")
    | .identifier _ :: _ => .error (.expecting "'='")
    | _ => .error (.expecting "unquoted map key")

end

inductive Expecting
  | mapKey
  | equal
  | value
  | comma
  deriving DecidableEq

/-- With the tokens which the scanner didn't give yet -/
structure ParsingState (ρ : Type) where
  tokens : List (Token ρ)
  expecting : Expecting := .mapKey
  lastMapKey : String := ""
  params : String → Option (Value ρ) := fun _ => none

/-- Whether or not this is the end, and the next state -/
def iniHandleState (state : ParsingState ρ) : Except Error (Bool × ParsingState ρ) :=
  match state.tokens with
  | [] =>
    match state.expecting with
    | .comma => .ok (true, state)
    | .equal => .error (.expecting "`=`")
    | .value => .error (.expecting "value")
    | .mapKey => .error (.expecting "unquoted map key")
  | token :: tokens =>
    match state.expecting with
    | .mapKey =>
      match token with
      | .identifier id => .ok (false, { state with tokens, lastMapKey := id, expecting := .equal })
      | _ => .error (.expecting "unquoted map key")
    | .equal =>
      match token with
      | .char '=' => .ok (false, { state with tokens, expecting := .value })
      | _ => .error (.expecting "'='")
    | .value =>
      match iniParseValue (2 * tokens.length + 2) token tokens with
      | .error error => .error error
      | .ok (value, tokens) =>
        .ok (false, { state with
          tokens, expecting := .comma, params := insertEntry state.params state.lastMapKey value })
    | .comma =>
      match token with
      | .char ',' => .ok (false, { state with tokens, expecting := .mapKey })
      | _ => .error (.expecting "','")

/-- The loop of `bt_param_parse()` -/
def paramParseLoop : ℕ → ParsingState ρ → Except Error (String → Option (Value ρ))
  | 0, _ => .error .outOfFuel
  | fuel + 1, state =>
    match iniHandleState state with
    | .error error => .error error
    | .ok (true, state) => .ok state.params
    | .ok (false, state) => paramParseLoop fuel state

def paramParse (tokens : List (Token ρ)) : Except Error (String → Option (Value ρ)) :=
  paramParseLoop (tokens.length + 1) { tokens }

/-! ## Grammar -/

def mapOf (entries : List (String × Value ρ)) : String → Option (Value ρ) :=
  fun key => entries.reverse.lookup key

mutual

inductive ValueText : List (Token ρ) → Value ρ → Prop
  | null {id : String} (h : id ∈ ["null", "nul", "NULL"]) : ValueText [.identifier id] .null
  | true {id : String} (h : id ∈ ["true", "TRUE", "yes", "YES"]) :
    ValueText [.identifier id] (.bool true)
  | false {id : String} (h : id ∈ ["false", "FALSE", "no", "NO"]) :
    ValueText [.identifier id] (.bool false)
  | unquoted {id : String}
    (h : id ∉ ["null", "nul", "NULL", "true", "TRUE", "yes", "YES", "false", "FALSE", "no", "NO"]) :
    ValueText [.identifier id] (.string id)
  | quoted (str : String) : ValueText [.string str] (.string str)
  | int {val : UInt64} {value : Int64} (h : value.toInt = val.toNat) :
    ValueText [.int val] (.signedInteger value)
  | negInt {val : UInt64} {value : Int64} (h : value.toInt = -(val.toNat : ℤ)) :
    ValueText [.char '-', .int val] (.signedInteger value)
  | uint (val : UInt64) : ValueText [.char '+', .int val] (.unsignedInteger val)
  | real (val : ρ) : ValueText [.float val] (.real val)
  | negReal (val : ρ) : ValueText [.char '-', .float val] (.real (-val))
  | array {tokens : List (Token ρ)} {elems : List (Value ρ)} (h : ElemsText tokens elems) :
    ValueText (.char '[' :: (tokens ++ [.char ']'])) (.array elems)
  | map {tokens : List (Token ρ)} {entries : List (String × Value ρ)}
    (h : EntriesText tokens entries) :
    ValueText (.char '{' :: (tokens ++ [.char '}'])) (.map (mapOf entries))

/-- There may be a comma after the last value. -/
inductive ElemsText : List (Token ρ) → List (Value ρ) → Prop
  | nil : ElemsText [] []
  | last {tokens : List (Token ρ)} {elem : Value ρ} (h : ValueText tokens elem) :
    ElemsText tokens [elem]
  | cons {tokens tokens' : List (Token ρ)} {elem : Value ρ} {elems : List (Value ρ)}
    (h : ValueText tokens elem) (h' : ElemsText tokens' elems) :
    ElemsText (tokens ++ .char ',' :: tokens') (elem :: elems)

/-- There may be a comma after the last assignment. -/
inductive EntriesText : List (Token ρ) → List (String × Value ρ) → Prop
  | nil : EntriesText [] []
  | last {tokens : List (Token ρ)} {key : String} {value : Value ρ} (h : ValueText tokens value) :
    EntriesText (.identifier key :: .char '=' :: tokens) [(key, value)]
  | cons {tokens tokens' : List (Token ρ)} {key : String} {value : Value ρ}
    {entries : List (String × Value ρ)} (h : ValueText tokens value)
    (h' : EntriesText tokens' entries) :
    EntriesText (.identifier key :: .char '=' :: (tokens ++ .char ',' :: tokens'))
      ((key, value) :: entries)

end

/-- At least one assignment, without a comma after the last one -/
inductive ParamsText : List (Token ρ) → List (String × Value ρ) → Prop
  | last {tokens : List (Token ρ)} {key : String} {value : Value ρ} (h : ValueText tokens value) :
    ParamsText (.identifier key :: .char '=' :: tokens) [(key, value)]
  | cons {tokens tokens' : List (Token ρ)} {key : String} {value : Value ρ}
    {entries : List (String × Value ρ)} (h : ValueText tokens value)
    (h' : ParamsText tokens' entries) :
    ParamsText (.identifier key :: .char '=' :: (tokens ++ .char ',' :: tokens'))
      ((key, value) :: entries)

/-! ## Integers, identifiers and maps -/

theorem toInt_eq_iff {val : UInt64} {value : Int64} :
    value.toInt = val.toNat ↔ ¬val > 9223372036854775807 ∧ value = val.toInt64 := by
  have hval := val.toNat_lt
  have hle := value.toInt_lt
  have hgt : val > 9223372036854775807 ↔ 9223372036854775807 < val.toNat := UInt64.lt_iff_toNat_lt
  rw [hgt, ← Int64.toInt_inj, CLib.toInt_toInt64]
  split_ifs <;> omega

theorem toInt_eq_neg_iff {val : UInt64} {value : Int64} :
    value.toInt = -(val.toNat : ℤ) ↔
      ¬val > 9223372036854775807 + 1 ∧ value = -val.toInt64 := by
  have hval := val.toNat_lt
  have hle := value.le_toInt
  have hgt : val > 9223372036854775807 + 1 ↔ 9223372036854775808 < val.toNat :=
    UInt64.lt_iff_toNat_lt
  rw [hgt, ← Int64.toInt_inj, Int64.toInt_neg, CLib.toInt_toInt64, Int.bmod_def]
  split_ifs <;> omega

theorem valueText_identifierValue (id : String) :
    ValueText [.identifier id] (identifierValue id : Value ρ) := by
  unfold identifierValue
  split_ifs with hnull htrue hfalse
  · exact .null (by simp only [List.mem_cons, List.not_mem_nil, or_false]; tauto)
  · exact .true (by simp only [List.mem_cons, List.not_mem_nil, or_false]; tauto)
  · exact .false (by simp only [List.mem_cons, List.not_mem_nil, or_false]; tauto)
  · exact .unquoted (by simp only [List.mem_cons, List.not_mem_nil, or_false]; tauto)

theorem identifierValue_eq {id : String} {value : Value ρ} (h : ValueText [.identifier id] value) :
    identifierValue id = value := by
  cases h with
  | null h =>
    simp only [List.mem_cons, List.not_mem_nil, or_false] at h
    rcases h with rfl | rfl | rfl <;> simp [identifierValue]
  | true h | false h =>
    simp only [List.mem_cons, List.not_mem_nil, or_false] at h
    rcases h with rfl | rfl | rfl | rfl <;> simp [identifierValue]
  | unquoted h =>
    simp only [List.mem_cons, List.not_mem_nil, or_false, not_or] at h
    simp [identifierValue, h]

def insertAll (entries : String → Option (Value ρ)) (added : List (String × Value ρ)) :
    String → Option (Value ρ) :=
  added.foldl (fun entries entry => insertEntry entries entry.1 entry.2) entries

omit [Neg ρ] in
theorem mapOf_eq (entries : List (String × Value ρ)) :
    mapOf entries = insertAll (fun _ => none) entries := by
  induction entries using List.reverseRecOn with
  | nil => rfl
  | append_singleton entries entry ih =>
    have hlast : insertAll (fun _ => none) (entries ++ [entry]) =
        insertEntry (mapOf entries) entry.1 entry.2 := by
      rw [ih, insertAll, List.foldl_append]
      rfl
    rw [hlast]
    obtain ⟨key, value⟩ := entry
    funext key'
    by_cases hkey : key' = key
    · subst hkey
      simp [mapOf, insertEntry]
    · have hne : (key' == key) = false := by simpa using hkey
      simp [mapOf, insertEntry, List.lookup_cons, hne, Function.update_of_ne hkey]

/-! ## What is accepted derives from the grammar -/

structure Sound (ρ : Type) [Neg ρ] (fuel : ℕ) : Prop where
  value : ∀ {token : Token ρ} {rest rest' value}, iniParseValue fuel token rest = .ok (value, rest') →
    ∃ tokens, token :: rest = tokens ++ rest' ∧ ValueText tokens value
  array : ∀ {elems : List (Value ρ)} {tokens rest' value},
    iniParseArray fuel elems tokens = .ok (value, rest') →
    ∃ inner elems', tokens = inner ++ .char ']' :: rest' ∧ ElemsText inner elems' ∧
      value = .array (elems ++ elems')
  map : ∀ {entries : String → Option (Value ρ)} {tokens rest' value},
    iniParseMap fuel entries tokens = .ok (value, rest') →
    ∃ inner entries', tokens = inner ++ .char '}' :: rest' ∧ EntriesText inner entries' ∧
      value = .map (insertAll entries entries')

section
variable {fuel : ℕ} {token : Token ρ} {tokens rest rest' : List (Token ρ)} {value : Value ρ}

theorem iniParseNegNumber_sound (h : iniParseNegNumber rest = .ok (value, rest')) :
    ∃ tokens, .char '-' :: rest = tokens ++ rest' ∧ ValueText tokens value := by
  unfold iniParseNegNumber at h
  split at h
  · split_ifs at h with hval
    cases h
    exact ⟨_, rfl, .negInt (toInt_eq_neg_iff.mpr ⟨hval, rfl⟩)⟩
  · cases h
    exact ⟨_, rfl, .negReal _⟩
  · cases h

theorem iniParseUInt_sound (h : iniParseUInt rest = .ok (value, rest')) :
    ∃ tokens, .char '+' :: rest = tokens ++ rest' ∧ ValueText tokens value := by
  unfold iniParseUInt at h
  split at h
  · cases h
    exact ⟨_, rfl, .uint _⟩
  · cases h

theorem Sound.value_succ (hsound : Sound ρ fuel)
    (h : iniParseValue (fuel + 1) token rest = .ok (value, rest')) :
    ∃ tokens, token :: rest = tokens ++ rest' ∧ ValueText tokens value := by
  cases token with
  | char ch =>
    simp only [iniParseValue] at h
    split_ifs at h with hneg hplus harray hmap
    · exact hneg ▸ iniParseNegNumber_sound h
    · exact hplus ▸ iniParseUInt_sound h
    · obtain ⟨inner, elems, rfl, helems, rfl⟩ := hsound.array h
      exact ⟨_, by simp [harray], .array helems⟩
    · obtain ⟨inner, entries, rfl, hentries, rfl⟩ := hsound.map h
      rw [← mapOf_eq]
      exact ⟨_, by simp [hmap], .map hentries⟩
  | int val =>
    simp only [iniParseValue] at h
    split_ifs at h with hval
    cases h
    exact ⟨_, rfl, .int (toInt_eq_iff.mpr ⟨hval, rfl⟩)⟩
  | float val =>
    cases h
    exact ⟨_, rfl, .real val⟩
  | string str =>
    cases h
    exact ⟨_, rfl, .quoted str⟩
  | identifier id =>
    cases h
    exact ⟨_, rfl, valueText_identifierValue id⟩
  | other => cases h

theorem iniParseArray_cons (htoken : token ≠ .char ']') (elems : List (Value ρ)) :
    iniParseArray (fuel + 1) elems (token :: rest) =
      match iniParseValue fuel token rest with
      | .error error => .error error
      | .ok (item, .char ',' :: rest) => iniParseArray fuel (elems ++ [item]) rest
      | .ok (item, .char ']' :: rest) => iniParseArray fuel (elems ++ [item]) (.char ']' :: rest)
      | .ok _ => .error (.expecting "`,` or `]`") := by
  rw [iniParseArray]
  exact htoken

theorem Sound.array_succ (hsound : Sound ρ fuel) {elems : List (Value ρ)}
    (h : iniParseArray (fuel + 1) elems tokens = .ok (value, rest')) :
    ∃ inner elems', tokens = inner ++ .char ']' :: rest' ∧ ElemsText inner elems' ∧
      value = .array (elems ++ elems') := by
  cases tokens with
  | nil => cases h
  | cons token rest =>
    by_cases htoken : token = .char ']'
    · subst htoken
      cases h
      exact ⟨[], [], rfl, .nil, by simp⟩
    · rw [iniParseArray_cons htoken] at h
      split at h
      · cases h
      · rename_i item after hitem
        obtain ⟨ts, hts, htext⟩ := hsound.value hitem
        obtain ⟨inner, elems', rfl, helems, rfl⟩ := hsound.array h
        exact ⟨_, _, by simp [hts], .cons htext helems, by simp⟩
      · rename_i item after hitem
        obtain ⟨ts, hts, htext⟩ := hsound.value hitem
        -- the loop ends at its next iteration
        cases fuel with
        | zero => cases h
        | succ fuel =>
          cases h
          exact ⟨ts, [item], hts, .last htext, rfl⟩
      · cases h

theorem Sound.map_succ (hsound : Sound ρ fuel) {entries : String → Option (Value ρ)}
    (h : iniParseMap (fuel + 1) entries tokens = .ok (value, rest')) :
    ∃ inner entries', tokens = inner ++ .char '}' :: rest' ∧ EntriesText inner entries' ∧
      value = .map (insertAll entries entries') := by
  unfold iniParseMap at h
  split at h
  · cases h
    exact ⟨[], [], rfl, .nil, rfl⟩
  · split at h
    · cases h
    · rename_i hitem
      obtain ⟨ts, hts, htext⟩ := hsound.value hitem
      obtain ⟨inner, entries', rfl, hentries, rfl⟩ := hsound.map h
      exact ⟨_, _, by simp [hts], .cons htext hentries, rfl⟩
    · rename_i hitem
      obtain ⟨ts, hts, htext⟩ := hsound.value hitem
      cases fuel with
      | zero => cases h
      | succ fuel =>
        cases h
        exact ⟨_, _, by simp [hts], .last htext, rfl⟩
    · cases h
  all_goals cases h

theorem sound (fuel : ℕ) : Sound ρ fuel := by
  induction fuel with
  | zero => exact ⟨nofun, nofun, nofun⟩
  | succ fuel ih => exact ⟨ih.value_succ, ih.array_succ, ih.map_succ⟩

/-! ## What derives from the grammar is accepted -/

structure Complete (ρ : Type) [Neg ρ] (fuel : ℕ) : Prop where
  value : ∀ {token : Token ρ} {tokens value}, ValueText (token :: tokens) value →
    tokens.length < fuel → ∀ rest, iniParseValue fuel token (tokens ++ rest) = .ok (value, rest)
  array : ∀ {tokens : List (Token ρ)} {elems'}, ElemsText tokens elems' → tokens.length < fuel →
    ∀ elems rest, iniParseArray fuel elems (tokens ++ .char ']' :: rest) =
      .ok (.array (elems ++ elems'), rest)
  map : ∀ {tokens : List (Token ρ)} {entries'}, EntriesText tokens entries' → tokens.length < fuel →
    ∀ entries rest, iniParseMap fuel entries (tokens ++ .char '}' :: rest) =
      .ok (.map (insertAll entries entries'), rest)

theorem ValueText.exists_cons (h : ValueText tokens value) :
    ∃ token rest, tokens = token :: rest ∧ token ≠ .char ']' := by
  cases h <;> exact ⟨_, _, rfl, by simp⟩

theorem Complete.value_succ (hcomplete : Complete ρ fuel) (h : ValueText (token :: tokens) value)
    (hlen : tokens.length < fuel + 1) (rest : List (Token ρ)) :
    iniParseValue (fuel + 1) token (tokens ++ rest) = .ok (value, rest) := by
  cases h with
  | null h => rw [← identifierValue_eq (.null h)]; rfl
  | true h => rw [← identifierValue_eq (.true h)]; rfl
  | false h => rw [← identifierValue_eq (.false h)]; rfl
  | unquoted h => rw [← identifierValue_eq (.unquoted h)]; rfl
  | quoted str => rfl
  | int h =>
    obtain ⟨hval, rfl⟩ := toInt_eq_iff.mp h
    simp only [iniParseValue, if_neg hval]
    rfl
  | negInt h =>
    obtain ⟨hval, rfl⟩ := toInt_eq_neg_iff.mp h
    simp only [iniParseValue, iniParseNegNumber, List.cons_append, List.nil_append, if_true, if_neg hval]
  | uint val => rfl
  | real val => rfl
  | negReal val => rfl
  | @array inner elems helems =>
    simp only [List.length_append, List.length_singleton] at hlen
    simp only [List.append_assoc, List.singleton_append]
    exact hcomplete.array helems (by omega) [] rest
  | @map inner entries hentries =>
    simp only [List.length_append, List.length_singleton] at hlen
    simp only [List.append_assoc, List.singleton_append]
    rw [mapOf_eq]
    exact hcomplete.map hentries (by omega) _ rest

theorem Complete.array_succ (hcomplete : Complete ρ fuel) {elems' : List (Value ρ)}
    (h : ElemsText tokens elems') (hlen : tokens.length < fuel + 1) (elems : List (Value ρ))
    (rest : List (Token ρ)) :
    iniParseArray (fuel + 1) elems (tokens ++ .char ']' :: rest) =
      .ok (.array (elems ++ elems'), rest) := by
  cases h with
  | nil => simp [iniParseArray]
  | last h =>
    obtain ⟨token, tokens, rfl, htoken⟩ := h.exists_cons
    rw [List.length_cons] at hlen
    rw [List.cons_append, iniParseArray_cons htoken, hcomplete.value h (by omega)]
    simpa using hcomplete.array .nil (by simp; omega) (elems ++ [_]) rest
  | cons h h' =>
    obtain ⟨token, tokens, rfl, htoken⟩ := h.exists_cons
    simp only [List.cons_append, List.length_cons, List.length_append] at hlen
    rw [List.append_assoc, List.cons_append, List.cons_append, iniParseArray_cons htoken,
      hcomplete.value h (by omega)]
    simp only
    rw [hcomplete.array h' (by omega)]
    simp

theorem Complete.map_succ (hcomplete : Complete ρ fuel) {entries' : List (String × Value ρ)}
    (h : EntriesText tokens entries') (hlen : tokens.length < fuel + 1)
    (entries : String → Option (Value ρ)) (rest : List (Token ρ)) :
    iniParseMap (fuel + 1) entries (tokens ++ .char '}' :: rest) =
      .ok (.map (insertAll entries entries'), rest) := by
  cases h with
  | nil => simp [iniParseMap, insertAll]
  | last h =>
    obtain ⟨token, tokens, rfl, -⟩ := h.exists_cons
    simp only [List.length_cons] at hlen
    simp only [List.cons_append, iniParseMap, hcomplete.value h (show tokens.length < fuel by omega)]
    exact hcomplete.map .nil (by simp; omega) _ rest
  | cons h h' =>
    obtain ⟨token, tokens, rfl, -⟩ := h.exists_cons
    simp only [List.cons_append, List.length_cons, List.length_append] at hlen
    simp only [List.append_assoc, List.cons_append, iniParseMap,
      hcomplete.value h (show tokens.length < fuel by omega)]
    exact hcomplete.map h' (by omega) _ rest

theorem complete (fuel : ℕ) : Complete ρ fuel := by
  induction fuel with
  | zero => exact ⟨fun _ h => absurd h (Nat.not_lt_zero _), fun _ h => absurd h (Nat.not_lt_zero _),
      fun _ h => absurd h (Nat.not_lt_zero _)⟩
  | succ fuel ih => exact ⟨ih.value_succ, ih.array_succ, ih.map_succ⟩

theorem iniParseValue_eq_ok_iff (hfuel : rest.length < fuel) :
    iniParseValue fuel token rest = .ok (value, rest') ↔
      ∃ tokens, token :: rest = tokens ++ rest' ∧ ValueText tokens value := by
  refine ⟨(sound fuel).value, ?_⟩
  rintro ⟨tokens, heq, htext⟩
  obtain ⟨token', tokens, rfl, -⟩ := htext.exists_cons
  rw [List.cons_append, List.cons.injEq] at heq
  obtain ⟨rfl, rfl⟩ := heq
  exact (complete fuel).value htext (by rw [List.length_append] at hfuel; omega) rest'

theorem iniParseValue_length_le (h : iniParseValue fuel token rest = .ok (value, rest')) :
    rest'.length ≤ rest.length := by
  obtain ⟨tokens, heq, htext⟩ := (sound fuel).value h
  obtain ⟨token', tokens, rfl, -⟩ := htext.exists_cons
  have hlen := congrArg List.length heq
  simp only [List.cons_append, List.length_cons, List.length_append] at hlen
  omega

/-! ## Fuel -/

structure InFuel (ρ : Type) [Neg ρ] (fuel : ℕ) : Prop where
  value : ∀ {token : Token ρ} {rest}, 2 * rest.length + 2 ≤ fuel →
    iniParseValue fuel token rest ≠ .error .outOfFuel
  array : ∀ {tokens : List (Token ρ)}, 2 * tokens.length + 1 ≤ fuel →
    ∀ elems, iniParseArray fuel elems tokens ≠ .error .outOfFuel
  map : ∀ {tokens : List (Token ρ)}, 2 * tokens.length + 1 ≤ fuel →
    ∀ entries, iniParseMap fuel entries tokens ≠ .error .outOfFuel

theorem InFuel.value_succ (hfuel : InFuel ρ fuel) (hlen : 2 * rest.length + 2 ≤ fuel + 1) :
    iniParseValue (fuel + 1) token rest ≠ .error .outOfFuel := by
  cases token with
  | char ch =>
    simp only [iniParseValue]
    split_ifs
    · unfold iniParseNegNumber
      split
      · split_ifs <;> simp
      all_goals simp
    · unfold iniParseUInt
      split <;> simp
    · exact hfuel.array (by omega) _
    · exact hfuel.map (by omega) _
    · simp
  | int val =>
    simp only [iniParseValue]
    split_ifs <;> simp
  | _ => simp [iniParseValue]

theorem InFuel.array_succ (hfuel : InFuel ρ fuel) (hlen : 2 * tokens.length + 1 ≤ fuel + 1)
    (elems : List (Value ρ)) : iniParseArray (fuel + 1) elems tokens ≠ .error .outOfFuel := by
  cases tokens with
  | nil => simp [iniParseArray]
  | cons token rest =>
    rw [List.length_cons] at hlen
    by_cases htoken : token = .char ']'
    · simp [htoken, iniParseArray]
    · rw [iniParseArray_cons htoken]
      split
      · rename_i error herror
        rintro ⟨⟩
        exact hfuel.value (by omega) herror
      · rename_i hitem
        have hle := iniParseValue_length_le hitem
        rw [List.length_cons] at hle
        exact hfuel.array (by omega) _
      · rename_i hitem
        have hle := iniParseValue_length_le hitem
        exact hfuel.array (by omega) _
      · simp

theorem InFuel.map_succ (hfuel : InFuel ρ fuel) (hlen : 2 * tokens.length + 1 ≤ fuel + 1)
    (entries : String → Option (Value ρ)) :
    iniParseMap (fuel + 1) entries tokens ≠ .error .outOfFuel := by
  unfold iniParseMap
  split
  · simp
  · simp only [List.length_cons] at hlen
    split
    · rename_i error herror
      rintro ⟨⟩
      exact hfuel.value (by omega) herror
    · rename_i hitem
      have hle := iniParseValue_length_le hitem
      rw [List.length_cons] at hle
      exact hfuel.map (by omega) _
    · rename_i hitem
      have hle := iniParseValue_length_le hitem
      exact hfuel.map (by omega) _
    · simp
  all_goals simp

theorem inFuel (fuel : ℕ) : InFuel ρ fuel := by
  induction fuel with
  | zero => exact ⟨fun h => by omega, fun h => by omega, fun h => by omega⟩
  | succ fuel ih => exact ⟨ih.value_succ, ih.array_succ, ih.map_succ⟩

/-! ## State machine -/

def Remains (lastMapKey : String) (tokens : List (Token ρ)) (entries : List (String × Value ρ)) :
    Expecting → Prop
  | .mapKey => ParamsText tokens entries
  | .equal => ParamsText (.identifier lastMapKey :: tokens) entries
  | .value => ParamsText (.identifier lastMapKey :: .char '=' :: tokens) entries
  | .comma => tokens = [] ∧ entries = [] ∨
    ∃ tokens', tokens = .char ',' :: tokens' ∧ ParamsText tokens' entries

variable {lastMapKey : String} {entries : List (String × Value ρ)}

theorem paramsText_iff : ParamsText tokens entries ↔ ∃ key token rest value rest' entries',
    tokens = .identifier key :: .char '=' :: token :: rest ∧
      iniParseValue (2 * rest.length + 2) token rest = .ok (value, rest') ∧
      entries = (key, value) :: entries' ∧ Remains key rest' entries' .comma := by
  constructor
  · intro h
    cases h with
    | last htext =>
      obtain ⟨token, rest, rfl, -⟩ := htext.exists_cons
      exact ⟨_, token, rest, _, [], [], rfl,
        (iniParseValue_eq_ok_iff (by omega)).mpr ⟨_, by simp, htext⟩, rfl, .inl ⟨rfl, rfl⟩⟩
    | @cons ts ts' _ _ _ htext h =>
      obtain ⟨token, rest, rfl, -⟩ := htext.exists_cons
      exact ⟨_, token, rest ++ .char ',' :: ts', _, .char ',' :: ts', _, by simp,
        (iniParseValue_eq_ok_iff (by omega)).mpr ⟨_, by simp, htext⟩, rfl, .inr ⟨ts', rfl, h⟩⟩
  · rintro ⟨key, token, rest, value, rest', entries', rfl, hvalue, rfl, hremains⟩
    obtain ⟨ts, hts, htext⟩ := (sound _).value hvalue
    rw [hts]
    rcases hremains with ⟨rfl, rfl⟩ | ⟨tokens', rfl, h⟩
    · rw [List.append_nil]
      exact .last htext
    · exact .cons htext h

theorem ParamsText.begins (h : ParamsText tokens entries) : ∃ key token rest,
    tokens = .identifier key :: .char '=' :: token :: rest ∧
      ∃ r, iniParseValue (2 * rest.length + 2) token rest = .ok r := by
  obtain ⟨key, token, rest, value, rest', -, rfl, hvalue, -⟩ := paramsText_iff.mp h
  exact ⟨key, token, rest, rfl, _, hvalue⟩

def Parses (state : ParsingState ρ) (result : Except Error (String → Option (Value ρ))) : Prop :=
  (∀ params, result = .ok params ↔
    ∃ entries, Remains state.lastMapKey state.tokens entries state.expecting ∧
      params = insertAll state.params entries) ∧
    result ≠ .error .outOfFuel

theorem Parses.error {state : ParsingState ρ} {error : Error} (herror : error ≠ .outOfFuel)
    (h : ∀ entries, ¬Remains state.lastMapKey state.tokens entries state.expecting) :
    Parses state (.error error) := by
  refine ⟨fun params => iff_of_false nofun ?_, by simpa using herror⟩
  rintro ⟨entries, hremains, -⟩
  exact h entries hremains

theorem Parses.of_eq {state state' : ParsingState ρ}
    {result : Except Error (String → Option (Value ρ))} (h : Parses state' result)
    (hparams : state'.params = state.params)
    (hremains : ∀ entries, Remains state.lastMapKey state.tokens entries state.expecting ↔
      Remains state'.lastMapKey state'.tokens entries state'.expecting) : Parses state result := by
  simp only [Parses, hremains, ← hparams]
  exact h

theorem parses_value {token : Token ρ} {params : String → Option (Value ρ)}
    {result : Except Error (String → Option (Value ρ))}
    (hvalue : iniParseValue (2 * rest.length + 2) token rest = .ok (value, rest'))
    (h : Parses ⟨rest', .comma, lastMapKey, insertEntry params lastMapKey value⟩ result) :
    Parses ⟨token :: rest, .value, lastMapKey, params⟩ result := by
  refine ⟨fun params' => (h.1 params').trans ?_, h.2⟩
  simp only [Remains.eq_3, paramsText_iff]
  constructor
  · rintro ⟨entries, hremains, rfl⟩
    exact ⟨_, ⟨_, _, _, _, _, _, rfl, hvalue, rfl, hremains⟩, rfl⟩
  · rintro ⟨entries, ⟨key, token', rest₁, value', rest₂, entries', heq, hvalue', rfl, hremains⟩, rfl⟩
    simp only [List.cons.injEq, Token.identifier.injEq, true_and] at heq
    obtain ⟨rfl, rfl, rfl⟩ := heq
    rw [hvalue, Except.ok.injEq, Prod.mk.injEq] at hvalue'
    obtain ⟨rfl, rfl⟩ := hvalue'
    exact ⟨entries', hremains, rfl⟩

theorem paramParseLoop_parses (fuel : ℕ) (state : ParsingState ρ)
    (hfuel : state.tokens.length < fuel) : Parses state (paramParseLoop fuel state) := by
  induction fuel generalizing state with
  | zero => omega
  | succ fuel ih =>
    obtain ⟨tokens, expecting, lastMapKey, params⟩ := state
    cases tokens with
    | nil =>
      cases expecting with
      | comma =>
        refine ⟨fun params' => ?_, nofun⟩
        simp only [paramParseLoop, iniHandleState, Except.ok.injEq, Remains, true_and, reduceCtorEq,
          false_and, exists_false, or_false, exists_eq_left]
        exact eq_comm
      | _ =>
        refine .error (by simp) fun entries h => ?_
        obtain ⟨key, token, rest, heq, -⟩ := ParamsText.begins h
        cases heq
    | cons token tokens =>
      simp only [List.length_cons, Nat.add_lt_add_iff_right] at hfuel
      cases expecting with
      | mapKey =>
        cases token with
        | identifier id => exact (ih _ hfuel).of_eq rfl fun _ => Iff.rfl
        | _ =>
          refine .error (by simp) fun entries h => ?_
          obtain ⟨key, token, rest, heq, -⟩ := ParamsText.begins h
          cases heq
      | equal =>
        by_cases htoken : token = .char '='
        · subst htoken
          exact (ih _ hfuel).of_eq rfl fun _ => Iff.rfl
        · have hloop : paramParseLoop (fuel + 1) ⟨token :: tokens, .equal, lastMapKey, params⟩ =
              .error (.expecting "'='") := by
            simp only [paramParseLoop, iniHandleState]
          rw [hloop]
          refine .error (by simp) fun entries h => ?_
          obtain ⟨key, token', rest, heq, -⟩ := ParamsText.begins h
          simp only [List.cons.injEq] at heq
          exact htoken heq.2.1
      | value =>
        cases hvalue : iniParseValue (2 * tokens.length + 2) token tokens with
        | error error =>
          simp only [paramParseLoop, iniHandleState, hvalue]
          refine .error (fun h => (inFuel _).value le_rfl (h ▸ hvalue)) fun entries h => ?_
          obtain ⟨key, token', rest, heq, r, hok⟩ := ParamsText.begins h
          simp only [List.cons.injEq, true_and] at heq
          rw [← heq.2.1, ← heq.2.2, hvalue] at hok
          cases hok
        | ok r =>
          obtain ⟨value, rest⟩ := r
          have hle := iniParseValue_length_le hvalue
          simp only [paramParseLoop, iniHandleState, hvalue]
          exact parses_value hvalue (ih _ (by simp only; omega))
      | comma =>
        by_cases htoken : token = .char ','
        · subst htoken
          exact (ih _ hfuel).of_eq rfl fun _ => by simp [Remains]
        · have hloop : paramParseLoop (fuel + 1) ⟨token :: tokens, .comma, lastMapKey, params⟩ =
              .error (.expecting "','") := by
            simp only [paramParseLoop, iniHandleState]
          rw [hloop]
          refine .error (by simp) fun entries h => ?_
          simp only [Remains, reduceCtorEq, false_and, List.cons.injEq, false_or] at h
          obtain ⟨tokens', heq, -⟩ := h
          exact htoken heq.1

/-- The parser accepts exactly what derives from the grammar, and returns the map value which the
assignments denote; it always returns. -/
theorem paramParse_eq_ok_iff (tokens : List (Token ρ)) :
    (∀ params, paramParse tokens = .ok params ↔
      ∃ entries, ParamsText tokens entries ∧ params = mapOf entries) ∧
      paramParse tokens ≠ .error .outOfFuel := by
  simp only [mapOf_eq]
  exact paramParseLoop_parses (tokens.length + 1) { tokens } (Nat.lt_succ_self _)

end

end

end Babeltrace.ParamParse
