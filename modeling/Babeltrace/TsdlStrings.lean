import Mathlib

/-!
# TSDL string literals

How `sink.ctf.fs` writes a string (`translate-ctf-ir-to-tsdl.cpp`) and how the TSDL parser reads it
back (`import_string()` in `parser.ypp`). The writer makes hexadecimal escapes of two digits, and
the reader reads up to three digits (`importString_quotedString`).
-/
namespace Babeltrace.Tsdl

/-! ## Writer -/

/-- A lowercase hexadecimal digit, as `%02x` prints it -/
def hexDigit (n : UInt8) : UInt8 := if n < 10 then 48 + n else 87 + n

/-- The bytes which `append_quoted_string_content()` appends for one byte -/
def escape (ch : UInt8) : List UInt8 :=
  if ch < 32 ∨ 127 ≤ ch then
    if ch = 7 then [92, 97]
    else if ch = 8 then [92, 98]
    else if ch = 12 then [92, 102]
    else if ch = 10 then [92, 110]
    else if ch = 13 then [92, 114]
    else if ch = 9 then [92, 116]
    else if ch = 11 then [92, 118]
    else [92, 120, hexDigit (ch / 16), hexDigit (ch % 16)]
  else if ch = 34 ∨ ch = 92 then [92, ch]
  else [ch]

def quotedStringContent (str : List UInt8) : List UInt8 := str.flatMap escape

def quotedString (str : List UInt8) : List UInt8 := [34] ++ quotedStringContent str ++ [34]

/-! ## Reader -/

/-- An error (-1), or a failed assertion -/
inductive ImportErr
  | invalid
  | fault
  deriving DecidableEq, Repr

def isODigit (c : UInt8) : Bool := 48 ≤ c ∧ c ≤ 55

def isXDigit (c : UInt8) : Bool := (48 ≤ c ∧ c ≤ 57) ∨ (65 ≤ c ∧ c ≤ 70) ∨ (97 ≤ c ∧ c ≤ 102)

def digitVal (c : UInt8) : ℕ :=
  if c ≤ 57 then c.toNat - 48 else if c ≤ 70 then c.toNat - 55 else c.toNat - 87

/-- `strtoul()` for digits -/
def strToUl (base : ℕ) (digits : List UInt8) : ℕ :=
  digits.foldl (fun val digit => val * base + digitVal digit) 0

/-- The digits at the beginning of `src`, at most three -/
def parseBaseSequence (isDigit : UInt8 → Bool) (src : List UInt8) : List UInt8 :=
  (src.take 3).takeWhile isDigit

def simpleEscape (c : UInt8) : Option UInt8 :=
  match c with
  | 97 => some 7
  | 98 => some 8
  | 102 => some 12
  | 110 => some 10
  | 114 => some 13
  | 116 => some 9
  | 118 => some 11
  | 92 => some 92
  | 39 => some 39
  | 34 => some 34
  | 63 => some 63
  | _ => none

/-- The byte of the escape, and how many bytes it takes -/
def importEscape (src : List UInt8) : Except ImportErr (UInt8 × ℕ) :=
  match src with
  | [] => .error .invalid
  | c :: src =>
    match simpleEscape c with
    | some byte => .ok (byte, 1)
    | none =>
      if isODigit c then
        let digits := parseBaseSequence isODigit (c :: src)
        .ok (UInt8.ofNat (strToUl 8 digits), digits.length)
      else if c = 120 then
        let digits := parseBaseSequence isXDigit src
        if digits = [] then .error .fault
        else .ok (UInt8.ofNat (strToUl 16 digits), 1 + digits.length)
      else .error .invalid

/-- The loop of `import_basic_string()`: `dst` is what's decoded so far, in a buffer of `len` bytes.
-/
def importLoop (len : ℕ) (delim : UInt8) (dst src : List UInt8) : Except ImportErr (List UInt8) :=
  match src with
  | [] => .error .invalid
  | c :: rest =>
    if len < dst.length + 1 then .error .invalid
    else if c = delim then if rest = [] then .ok dst else .error .invalid
    else if c = 92 then
      match importEscape rest with
      | .error err => .error err
      | .ok (byte, n) => importLoop len delim (dst ++ [byte]) (rest.drop n)
    else importLoop len delim (dst ++ [c]) rest
termination_by src.length
decreasing_by
  all_goals simp only [List.length_cons, List.length_drop]
  all_goals omega

/-- `import_string()` and `import_basic_string()` -/
def importString (src : List UInt8) (delim : UInt8) : Except ImportErr (List UInt8) :=
  match src with
  | [] => .error .invalid
  | c :: rest =>
    if c = 76 then .error .invalid
    else if c ≠ delim then .error .invalid
    else importLoop (rest.length + 2) delim [] rest

/-! ## What is read back -/

def isHexEscaped (ch : UInt8) : Bool := (ch < 32 ∨ 127 ≤ ch) ∧ (ch < 7 ∨ 13 < ch)

/-- A hexadecimal escape takes the hexadecimal digit which follows it, if any. -/
def readBack : List UInt8 → List UInt8
  | [] => []
  | [ch] => [ch]
  | ch :: next :: str =>
    if isHexEscaped ch ∧ isXDigit next then
      UInt8.ofNat (ch.toNat * 16 + digitVal next) :: readBack str
    else ch :: readBack (next :: str)

theorem forall_byte {P : UInt8 → Prop} (h : ∀ n < 256, P (UInt8.ofNat n)) (ch : UInt8) : P ch := by
  have hch := h ch.toNat ch.toNat_lt
  rwa [UInt8.ofNat_toNat] at hch

theorem escape_cases (ch : UInt8) :
    (isHexEscaped ch = false ∧ ch ≠ 34 ∧ ch ≠ 92 ∧ escape ch = [ch]) ∨
      (isHexEscaped ch = false ∧ ∃ c ∈ (escape ch).tail.head?, escape ch = [92, c] ∧
        simpleEscape c = some ch) ∨
      (isHexEscaped ch = true ∧
        escape ch = [92, 120, hexDigit (ch / 16), hexDigit (ch % 16)]) := by
  revert ch
  exact forall_byte (by decide +kernel)

theorem escape_of_isXDigit (ch : UInt8) : isXDigit ch = true → escape ch = [ch] := by
  revert ch
  exact forall_byte (by decide +kernel)

theorem strToUl_hexDigits (ch : UInt8) :
    isXDigit (hexDigit (ch / 16)) = true ∧ isXDigit (hexDigit (ch % 16)) = true ∧
      strToUl 16 [hexDigit (ch / 16), hexDigit (ch % 16)] = ch.toNat := by
  revert ch
  exact forall_byte (by decide +kernel)

theorem takeWhile_content {str : List UInt8}
    (h : ∀ ch ∈ str.head?, isXDigit ch = false) :
    ((quotedStringContent str ++ [34]).take 1).takeWhile isXDigit = [] := by
  cases str with
  | nil => rfl
  | cons ch str =>
    have hch : isXDigit ch = false := h ch rfl
    have hbackslash : isXDigit 92 = false := rfl
    rw [quotedStringContent, List.flatMap_cons]
    rcases escape_cases ch with ⟨-, -, -, hescape⟩ | ⟨-, c, -, hescape, -⟩ | ⟨-, hescape⟩
    · simp [hescape, hch]
    · simp [hescape, hbackslash]
    · simp [hescape, hbackslash]

theorem parseBaseSequence_hexDigits {ch : UInt8} {src : List UInt8} :
    parseBaseSequence isXDigit (hexDigit (ch / 16) :: hexDigit (ch % 16) :: src) =
      [hexDigit (ch / 16), hexDigit (ch % 16)] ++ (src.take 1).takeWhile isXDigit := by
  obtain ⟨h₁, h₂, -⟩ := strToUl_hexDigits ch
  simp [parseBaseSequence, h₁, h₂]

section

variable {len : ℕ} {dst src str : List UInt8} {ch next : UInt8}

theorem importLoop_escape (hlen : dst.length + 1 ≤ len)
    (h : isHexEscaped ch = true → ∀ next ∈ str.head?, isXDigit next = false) :
    importLoop len 34 dst (escape ch ++ (quotedStringContent str ++ [34])) =
      importLoop len 34 (dst ++ [ch]) (quotedStringContent str ++ [34]) := by
  have hlen' : ¬len < dst.length + 1 := by omega
  rcases escape_cases ch with ⟨-, hquote, hbackslash, hescape⟩ | ⟨-, c, -, hescape, hsimple⟩ |
    ⟨hhex, hescape⟩
  · rw [hescape, List.singleton_append, importLoop, if_neg hlen', if_neg hquote, if_neg hbackslash]
  · have himport : importEscape (c :: (quotedStringContent str ++ [34])) = .ok (ch, 1) := by
      simp only [importEscape, hsimple]
    rw [hescape, List.cons_append, List.singleton_append, importLoop, if_neg hlen',
      if_neg (by decide), if_pos rfl, himport]
    rfl
  · have hdigits : parseBaseSequence isXDigit (hexDigit (ch / 16) :: hexDigit (ch % 16) ::
        (quotedStringContent str ++ [34])) = [hexDigit (ch / 16), hexDigit (ch % 16)] := by
      rw [parseBaseSequence_hexDigits, takeWhile_content (h hhex), List.append_nil]
    have himport : importEscape (120 :: hexDigit (ch / 16) :: hexDigit (ch % 16) ::
        (quotedStringContent str ++ [34])) = .ok (ch, 3) := by
      simp only [importEscape, simpleEscape, hdigits, (strToUl_hexDigits ch).2.2,
        UInt8.ofNat_toNat]
      rfl
    rw [hescape]
    simp only [List.cons_append, List.nil_append]
    rw [importLoop, if_neg hlen', if_neg (by decide), if_pos rfl, himport]
    rfl

theorem importLoop_escape_digit (hlen : dst.length + 1 ≤ len) (hhex : isHexEscaped ch = true)
    (hnext : isXDigit next = true) :
    importLoop len 34 dst (escape ch ++ (quotedStringContent (next :: str) ++ [34])) =
      importLoop len 34 (dst ++ [UInt8.ofNat (ch.toNat * 16 + digitVal next)])
        (quotedStringContent str ++ [34]) := by
  have hlen' : ¬len < dst.length + 1 := by omega
  have hescape : escape ch = [92, 120, hexDigit (ch / 16), hexDigit (ch % 16)] := by
    rcases escape_cases ch with ⟨hfalse, -⟩ | ⟨hfalse, -⟩ | ⟨-, hescape⟩
    · rw [hhex] at hfalse
      cases hfalse
    · rw [hhex] at hfalse
      cases hfalse
    · exact hescape
  have hcontent : quotedStringContent (next :: str) = next :: quotedStringContent str := by
    rw [quotedStringContent, List.flatMap_cons, escape_of_isXDigit next hnext]
    rfl
  have hdigits : parseBaseSequence isXDigit (hexDigit (ch / 16) :: hexDigit (ch % 16) ::
      next :: (quotedStringContent str ++ [34])) =
        [hexDigit (ch / 16), hexDigit (ch % 16), next] := by
    rw [parseBaseSequence_hexDigits]
    simp [hnext]
  have hval : strToUl 16 [hexDigit (ch / 16), hexDigit (ch % 16), next] =
      ch.toNat * 16 + digitVal next := by
    rw [← (strToUl_hexDigits ch).2.2]
    rfl
  have himport : importEscape (120 :: hexDigit (ch / 16) :: hexDigit (ch % 16) :: next ::
      (quotedStringContent str ++ [34])) =
        .ok (UInt8.ofNat (ch.toNat * 16 + digitVal next), 4) := by
    simp only [importEscape, simpleEscape, hdigits, hval]
    rfl
  rw [hescape, hcontent]
  simp only [List.cons_append, List.nil_append]
  rw [importLoop, if_neg hlen', if_neg (by decide), if_pos rfl, himport]
  rfl

theorem escape_length_pos (ch : UInt8) : 0 < (escape ch).length := by
  rcases escape_cases ch with ⟨-, -, -, hescape⟩ | ⟨-, c, -, hescape, -⟩ | ⟨-, hescape⟩ <;>
    simp [hescape]

theorem importLoop_end (hlen : dst.length + 1 ≤ len) :
    importLoop len 34 dst (quotedStringContent [] ++ [34]) = .ok dst := by
  have hlen' : ¬len < dst.length + 1 := by omega
  rw [quotedStringContent, List.flatMap_nil, List.nil_append, importLoop, if_neg hlen', if_pos rfl,
    if_pos rfl]

theorem quotedStringContent_cons (ch : UInt8) (str : List UInt8) :
    quotedStringContent (ch :: str) = escape ch ++ quotedStringContent str := rfl

theorem importLoop_content (str : List UInt8) (dst : List UInt8)
    (hlen : dst.length + (quotedStringContent str).length + 1 ≤ len) :
    importLoop len 34 dst (quotedStringContent str ++ [34]) = .ok (dst ++ readBack str) := by
  induction str using readBack.induct generalizing dst with
  | case1 =>
    rw [importLoop_end (by omega), readBack, List.append_nil]
  | case2 ch =>
    have hpos := escape_length_pos ch
    rw [quotedStringContent_cons, List.length_append] at hlen
    rw [quotedStringContent_cons, List.append_assoc,
      importLoop_escape (by omega) (fun _ next h => (by cases h)),
      importLoop_end (by rw [List.length_append, List.length_singleton]; omega), readBack]
  | case3 ch next str hmerge ih =>
    have hpos := escape_length_pos ch
    have hpos' := escape_length_pos next
    rw [quotedStringContent_cons, quotedStringContent_cons, List.length_append,
      List.length_append] at hlen
    rw [quotedStringContent_cons, List.append_assoc,
      importLoop_escape_digit (by omega) hmerge.1 hmerge.2,
      ih _ (by rw [List.length_append, List.length_singleton]; omega), readBack, if_pos hmerge,
      List.append_assoc]
    rfl
  | case4 ch next str hmerge ih =>
    have hpos := escape_length_pos ch
    have hdigit : isHexEscaped ch = true → ∀ next' ∈ (next :: str).head?, isXDigit next' = false := by
      rintro hhex _ ⟨⟩
      simpa [hhex] using hmerge
    rw [quotedStringContent_cons, List.length_append] at hlen
    rw [quotedStringContent_cons, List.append_assoc, importLoop_escape (by omega) hdigit,
      ih _ (by rw [List.length_append, List.length_singleton]; omega), readBack, if_neg hmerge,
      List.append_assoc]
    rfl

theorem importString_quotedString (str : List UInt8) :
    importString (quotedString str) 34 = .ok (readBack str) := by
  rw [quotedString, List.append_assoc, List.singleton_append, importString, if_neg (by decide),
    if_neg (by decide)]
  refine importLoop_content str [] ?_
  simp only [List.length_nil, List.length_append, List.length_singleton]
  omega

end

/-! ## Round trip -/

def NoDigitAfterHexEscape (str : List UInt8) : Prop :=
  str.IsChain fun ch next => ¬(isHexEscaped ch = true ∧ isXDigit next = true)

theorem readBack_length_le (str : List UInt8) : (readBack str).length ≤ str.length := by
  induction str using readBack.induct with
  | case1 | case2 => simp [readBack]
  | case3 ch next str hmerge ih =>
    rw [readBack, if_pos hmerge]
    simp only [List.length_cons]
    omega
  | case4 ch next str hmerge ih =>
    rw [readBack, if_neg hmerge]
    simp only [List.length_cons] at ih ⊢
    omega

theorem readBack_eq_iff (str : List UInt8) : readBack str = str ↔ NoDigitAfterHexEscape str := by
  unfold NoDigitAfterHexEscape
  induction str using readBack.induct with
  | case1 | case2 => simp [readBack]
  | case3 ch next str hmerge ih =>
    -- the digit is lost
    rw [readBack, if_pos hmerge, List.isChain_cons_cons]
    refine ⟨fun heq => ?_, fun h => absurd hmerge h.1⟩
    have hlength := congrArg List.length heq
    have hle := readBack_length_le str
    simp only [List.length_cons] at hlength
    omega
  | case4 ch next str hmerge ih =>
    rw [readBack, if_neg hmerge, List.isChain_cons_cons, List.cons_inj_right, ih]
    simp [hmerge]

/-- The reader decodes the string literal which the writer writes to the original string exactly
when no hexadecimal escape is followed by a hexadecimal digit. -/
theorem importString_quotedString_iff (str : List UInt8) :
    (∃ str', importString (quotedString str) 34 = .ok str') ∧
      (importString (quotedString str) 34 = .ok str ↔ NoDigitAfterHexEscape str) := by
  refine ⟨⟨_, importString_quotedString str⟩, ?_⟩
  rw [importString_quotedString, Except.ok.injEq, readBack_eq_iff]

theorem importString_digit_after_escape :
    quotedString [1, 97] = [34, 92, 120, 48, 49, 97, 34] ∧
      importString (quotedString [1, 97]) 34 = .ok [26] ∧
      importString (quotedString [1, 97]) 34 ≠ .ok [1, 97] := by
  exact ⟨by decide, by decide +kernel, by decide +kernel⟩

end Babeltrace.Tsdl
