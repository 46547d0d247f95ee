import Babeltrace.Numerals

/-!
# Bounds of the trimmer as texts

The formats of `set_bound_from_str()` (`trimmer.c`). The functions `match...` are its regular
expressions, which are anchored and leave no choice. A `SecsText` is a text of the format
`[-]s[.ns]`. The bound which it sets is exact for the times which 64 bits can hold, and only for
those.
-/
namespace Babeltrace.TrimmerBoundStr
open Digits (decimal)

/-! ## Matching -/

/-- `$`: the end of the text, or a line feed there -/
def atEnd (cs : List Char) : Bool := cs = [] || cs = ['\n']

def matchChar (c : Char) : List Char → Option (List Char)
  | [] => none
  | c' :: cs => if c' = c then some cs else none

/-- `([0-9]{n})` -/
def matchDigits (n : ℕ) (cs : List Char) : Option (List Char × List Char) :=
  if (cs.take n).length = n ∧ (cs.take n).all decimal.isDigit then
    some (cs.take n, cs.drop n)
  else none

/-- `(?:\.([0-9]{1,9}))?`: without a match, the text stays. -/
def matchNs (cs : List Char) : Option (List Char) × List Char :=
  match matchChar '.' cs with
  | none => (none, cs)
  | some cs' =>
    let digits := (cs'.take 9).takeWhile decimal.isDigit
    if digits = [] then (none, cs) else (some digits, cs'.drop digits.length)

/-- `DATE_RE`, and what follows -/
def readDate (cs : List Char) : Option ((List Char × List Char × List Char) × List Char) := do
  let (year, cs) ← matchDigits 4 cs
  let cs ← matchChar '-' cs
  let (month, cs) ← matchDigits 2 cs
  let cs ← matchChar '-' cs
  let (day, cs) ← matchDigits 2 cs
  return ((year, month, day), cs)

structure TimeMatch where
  hours : List Char
  minutes : List Char
  seconds : Option (List Char)
  ns : Option (List Char)

/-- `^TIME_RE$` -/
def matchTime (cs : List Char) : Option TimeMatch := do
  let (hours, cs) ← matchDigits 2 cs
  let cs ← matchChar ':' cs
  let (minutes, cs) ← matchDigits 2 cs
  match matchChar ':' cs >>= matchDigits 2 with
  | some (seconds, cs) =>
    let (ns, cs) := matchNs cs
    if atEnd cs then some ⟨hours, minutes, some seconds, ns⟩ else none
  | none => if atEnd cs then some ⟨hours, minutes, none, none⟩ else none

/-- `^DATE_RE TIME_RE$` -/
def matchDateTime (cs : List Char) : Option ((List Char × List Char × List Char) × TimeMatch) := do
  let (date, cs) ← readDate cs
  let cs ← matchChar ' ' cs
  let time ← matchTime cs
  return (date, time)

/-- `^DATE_RE$` -/
def matchDate (cs : List Char) : Option (List Char × List Char × List Char) := do
  let (date, cs) ← readDate cs
  if atEnd cs then some date else none

/-- `^S_NS_RE$`: a sign, seconds and maybe nanoseconds -/
def matchSecs (cs : List Char) : Option (List Char × List Char × Option (List Char)) :=
  let (sign, cs) := match matchChar '-' cs with
    | some cs => (['-'], cs)
    | none => ([], cs)
  let secs := cs.takeWhile decimal.isDigit
  let (ns, cs) := matchNs (cs.dropWhile decimal.isDigit)
  if secs ≠ [] ∧ atEnd cs then some (sign, secs, ns) else none

/-! ## Setting a bound -/

/-- Ways for the function not to return -/
inductive Trap where
  | assertion
  | undefined
  deriving DecidableEq, Repr

structure TrimmerTime where
  hour : ℕ
  minute : ℕ
  second : ℕ
  ns : ℕ
  deriving DecidableEq, Repr

structure TrimmerBound where
  nsFromOrigin : Int64
  isSet : Bool
  isInfinite : Bool
  time : TrimmerTime
  deriving DecidableEq, Repr

structure Tm where
  sec : ℤ
  min : ℤ
  hour : ℤ
  mday : ℤ
  mon : ℤ
  year : ℤ

def nsPerS : ℕ := 1000000000

/-- `g_ascii_strtoull()` sets `errno` to `ERANGE` for what 64 bits cannot hold. -/
def matchToUint (text : List Char) : Except Trap ℕ :=
  let result := decimal.value text
  if text = [] ∨ 2 ^ 64 ≤ result then .error .assertion else .ok result

def matchToUintNs (text : List Char) : Except Trap ℕ := do
  let nanoseconds ← matchToUint text
  if text.length < 1 ∨ 9 < text.length then .error .assertion
  else return nanoseconds * 10 ^ (9 - text.length) % 2 ^ 64

def optUint (toUint : List Char → Except Trap ℕ) : Option (List Char) → Except Trap ℕ
  | none => .ok 0
  | some text => toUint text

def int64 (n : ℤ) : Except Trap Int64 :=
  if -2 ^ 63 ≤ n ∧ n < 2 ^ 63 then .ok (.ofInt n) else .error .undefined

/-- `result` is what `bt_timegm()` or `mktime()` returns. The caller ignores the status. -/
def setBoundNsFromOrigin (result : ℤ) (bound : TrimmerBound) (ns : ℕ) :
    Except Trap TrimmerBound := do
  if result < 0 then return bound
  let nsFromOrigin ← int64 (result * nsPerS)
  let nsFromOrigin ← int64 (nsFromOrigin.toInt + ns)
  return { bound with nsFromOrigin := nsFromOrigin, isSet := true }

section SetBound

-- what `bt_timegm()` (with UTC) and `mktime()` return
variable (toTime : Bool → Tm → ℤ) (isGmt : Bool) (bound : TrimmerBound)

def setFromDateTime (year month day : List Char) (time : TimeMatch) : Except Trap TrimmerBound := do
  let year ← matchToUint year
  let month ← matchToUint month
  let day ← matchToUint day
  let hours ← matchToUint time.hours
  let minutes ← matchToUint time.minutes
  let seconds ← optUint matchToUint time.seconds
  let ns ← optUint matchToUintNs time.ns
  setBoundNsFromOrigin (toTime isGmt ⟨seconds, minutes, hours, day, month - 1, year - 1900⟩) bound ns

def setFromDate (year month day : List Char) : Except Trap TrimmerBound := do
  let year ← matchToUint year
  let month ← matchToUint month
  let day ← matchToUint day
  setBoundNsFromOrigin (toTime isGmt ⟨0, 0, 0, day, month - 1, year - 1900⟩) bound 0

def setFromTime (time : TimeMatch) : Except Trap TrimmerBound := do
  let hour ← matchToUint time.hours
  let minute ← matchToUint time.minutes
  let second ← match time.seconds with
    | none => .ok bound.time.second
    | some text => matchToUint text
  let ns ← match time.ns with
    | none => .ok bound.time.ns
    | some text => matchToUintNs text
  return { bound with time := ⟨hour, minute, second, ns⟩ }

def storeSecs (isNeg : Bool) (seconds nanoseconds : ℕ) : Except Trap TrimmerBound :=
  let nsFromOrigin := Int64.ofInt ((seconds * nsPerS + nanoseconds) % 2 ^ 64 : ℕ)
  (if isNeg then int64 (-nsFromOrigin.toInt) else .ok nsFromOrigin).map fun nsFromOrigin =>
    { bound with nsFromOrigin := nsFromOrigin, isSet := true }

def setFromSecs (sign secs : List Char) (ns : Option (List Char)) : Except Trap TrimmerBound := do
  let seconds ← matchToUint secs
  let nanoseconds ← optUint matchToUintNs ns
  storeSecs bound (0 < sign.length) seconds nanoseconds

/-- `set_bound_from_str()`: the status and the bound -/
def setBoundFromStr (str : List Char) : Except Trap (ℤ × TrimmerBound) :=
  match matchDateTime str with
  | some ((year, month, day), time) =>
    (setFromDateTime toTime isGmt bound year month day time).map (0, ·)
  | none =>
    match matchDate str with
    | some (year, month, day) => (setFromDate toTime isGmt bound year month day).map (0, ·)
    | none =>
      match matchTime str with
      | some time => (setFromTime bound time).map (0, ·)
      | none =>
        match matchSecs str with
        | some (sign, secs, ns) => (setFromSecs bound sign secs ns).map (0, ·)
        | none => .ok (-1, bound)

end SetBound

/-! ## Seconds and nanoseconds -/

/-- A text of the format `[-]s[.ns]` -/
structure SecsText where
  isNeg : Bool
  secs : List Char
  frac : Option (List Char)
  secs_ne_nil : secs ≠ []
  secs_digits : ∀ c ∈ secs, decimal.isDigit c = true
  frac_length : ∀ f ∈ frac, 1 ≤ f.length ∧ f.length ≤ 9
  frac_digits : ∀ f ∈ frac, ∀ c ∈ f, decimal.isDigit c = true

namespace SecsText

variable (t : SecsText)

def sign : List Char := if t.isNeg then ['-'] else []

def fracText : List Char :=
  match t.frac with
  | none => []
  | some f => '.' :: f

def text : List Char := t.sign ++ (t.secs ++ t.fracText)

def fracNs : ℕ :=
  match t.frac with
  | none => 0
  | some f => decimal.value f * 10 ^ (9 - f.length)

def absNs : ℕ := decimal.value t.secs * 10 ^ 9 + t.fracNs

def ns : ℤ := if t.isNeg then -t.absNs else t.absNs

end SecsText

variable {cs : List Char} {c : Char}

theorem value_lt_pow : decimal.value cs < 10 ^ cs.length := by
  induction cs using List.reverseRecOn with
  | nil => decide
  | append_singleton cs c ih =>
    have hdigit : (decimal.val c).getD 0 < 10 := by
      simp only [decimal, Digits.ofDecimal]
      split
      · rw [Option.getD_some]
        omega
      · decide
    rw [Digits.value_append_singleton, List.length_append, List.length_singleton, pow_succ]
    have hbase : decimal.base = 10 := rfl
    rw [hbase]
    omega

theorem matchChar_eq_none (h : c ∉ cs) : matchChar c cs = none := by
  cases cs with
  | nil => rfl
  | cons c' cs =>
    have hne : c' ≠ c := fun he => h (he ▸ List.mem_cons_self)
    rw [matchChar, if_neg hne]

theorem eq_drop_of_matchDigits {n : ℕ} {cs ds rest : List Char}
    (h : matchDigits n cs = some (ds, rest)) : rest = cs.drop n := by
  unfold matchDigits at h
  split at h
  · exact (Prod.mk.inj (Option.some.inj h)).2.symm
  · cases h

theorem readDate_eq_none (h : '-' ∉ cs.drop 4) : readDate cs = none := by
  unfold readDate
  cases hyear : matchDigits 4 cs with
  | none => rfl
  | some p =>
    obtain ⟨year, rest⟩ := p
    obtain rfl := eq_drop_of_matchDigits hyear
    simp [matchChar_eq_none h]

theorem matchTime_eq_none (h : ':' ∉ cs) : matchTime cs = none := by
  unfold matchTime
  cases hhours : matchDigits 2 cs with
  | none => rfl
  | some p =>
    obtain ⟨hours, rest⟩ := p
    obtain rfl := eq_drop_of_matchDigits hhours
    simp [matchChar_eq_none fun hc => h (List.mem_of_mem_drop hc)]

namespace SecsText

variable {t : SecsText}

theorem not_mem_unsigned (hc : decimal.isDigit c = false) (hpoint : c ≠ '.') :
    c ∉ t.secs ++ t.fracText := by
  have hdigits : ∀ {cs : List Char}, (∀ c ∈ cs, decimal.isDigit c = true) → c ∉ cs :=
    fun hcs hmem => by simp [hcs c hmem] at hc
  rw [List.mem_append, not_or]
  refine ⟨hdigits t.secs_digits, ?_⟩
  unfold fracText
  split
  case h_1 => exact List.not_mem_nil
  case h_2 f hf =>
    rw [List.mem_cons, not_or]
    exact ⟨hpoint, hdigits (t.frac_digits f hf)⟩

theorem matchDate_text : matchDateTime t.text = none ∧ matchDate t.text = none := by
  have hdash : '-' ∉ t.text.drop 4 := by
    intro hmem
    -- only the first character may be a sign
    have hdrop : t.text.drop 4 = (t.secs ++ t.fracText).drop (4 - t.sign.length) := by
      have hlen : t.sign.length ≤ 4 := by unfold sign; split <;> decide
      rw [text, List.drop_append, List.drop_of_length_le hlen, List.nil_append]
    rw [hdrop] at hmem
    exact not_mem_unsigned (by decide) (by decide) (List.mem_of_mem_drop hmem)
  simp [matchDateTime, matchDate, readDate_eq_none hdash]

theorem matchTime_text : matchTime t.text = none := by
  refine matchTime_eq_none fun hmem => ?_
  rcases List.mem_append.mp hmem with h | h
  · unfold sign at h
    split at h <;> simp at h
  · exact not_mem_unsigned (by decide) (by decide) h

theorem ends_fracText : decimal.Ends t.fracText := by
  unfold fracText
  split
  · exact Digits.ends_nil
  · exact Digits.ends_cons (by decide)

theorem matchNs_fracText : matchNs t.fracText = (t.frac, []) := by
  unfold fracText
  split
  case h_1 hf => rw [hf]; rfl
  case h_2 f hf =>
    obtain ⟨hpos, hle⟩ := t.frac_length f hf
    have htake : (f.take 9).takeWhile decimal.isDigit = f := by
      rw [List.take_of_length_le hle, List.takeWhile_eq_self_iff.mpr (t.frac_digits f hf)]
    have hne : f ≠ [] := List.length_pos_iff.mp hpos
    simp [matchNs, matchChar, htake, hne, hf]

theorem matchSecs_text : matchSecs t.text = some (t.sign, t.secs, t.frac) := by
  have hunsigned : matchChar '-' (t.secs ++ t.fracText) = none :=
    matchChar_eq_none (not_mem_unsigned (by decide) (by decide))
  have htake := Digits.takeWhile_append t.secs_digits t.ends_fracText
  have hdrop := Digits.dropWhile_append t.secs_digits t.ends_fracText
  cases hneg : t.isNeg with
  | true =>
    simp [matchSecs, text, sign, hneg, matchChar, htake, hdrop, matchNs_fracText, atEnd,
      t.secs_ne_nil]
  | false =>
    simp [matchSecs, text, sign, hneg, hunsigned, htake, hdrop, matchNs_fracText, atEnd,
      t.secs_ne_nil]

theorem fracNs_lt : t.fracNs < 10 ^ 9 := by
  unfold fracNs
  split
  · decide
  case h_2 f hf =>
    have hle := (t.frac_length f hf).2
    calc decimal.value f * 10 ^ (9 - f.length)
        < 10 ^ f.length * 10 ^ (9 - f.length) :=
          Nat.mul_lt_mul_of_pos_right value_lt_pow (by positivity)
      _ = 10 ^ 9 := by rw [← pow_add, Nat.add_sub_cancel' hle]

theorem optUint_frac : optUint matchToUintNs t.frac = .ok t.fracNs := by
  have hlt := t.fracNs_lt
  unfold fracNs at hlt ⊢
  cases hf : t.frac with
  | none => rfl
  | some f =>
    obtain ⟨hpos, hle⟩ := t.frac_length f hf
    have hvalue : decimal.value f < 2 ^ 64 :=
      value_lt_pow.trans_le ((Nat.pow_le_pow_right (by decide) hle).trans (by decide))
    have huint : matchToUint f = .ok (decimal.value f) := by
      rw [matchToUint, if_neg (not_or.mpr ⟨List.length_pos_iff.mp hpos, Nat.not_le.mpr hvalue⟩)]
    rw [hf] at hlt
    have hmod : decimal.value f * 10 ^ (9 - f.length) % 2 ^ 64
        = decimal.value f * 10 ^ (9 - f.length) := Nat.mod_eq_of_lt (hlt.trans (by decide))
    simp only [optUint, matchToUintNs, huint, bind, Except.bind, pure, Except.pure, hmod]
    rw [if_neg (by omega)]

theorem setFromSecs_text {bound : TrimmerBound} :
    setFromSecs bound t.sign t.secs t.frac =
      if 2 ^ 64 ≤ decimal.value t.secs then .error .assertion
      else storeSecs bound t.isNeg (decimal.value t.secs) t.fracNs := by
  have hsign : decide (0 < t.sign.length) = t.isNeg := by
    unfold sign
    split <;> simp_all
  simp only [setFromSecs, matchToUint, t.secs_ne_nil, false_or, optUint_frac, hsign]
  split <;> rfl

theorem setBoundFromStr_text (toTime : Bool → Tm → ℤ) (isGmt : Bool) (bound : TrimmerBound) :
    setBoundFromStr toTime isGmt bound t.text =
      if 2 ^ 64 ≤ decimal.value t.secs then .error .assertion
      else (storeSecs bound t.isNeg (decimal.value t.secs) t.fracNs).map (0, ·) := by
  simp only [setBoundFromStr, matchDate_text.1, matchDate_text.2, matchTime_text, matchSecs_text,
    setFromSecs_text]
  split <;> rfl

theorem storeSecs_eq {bound : TrimmerBound} :
    storeSecs bound t.isNeg (decimal.value t.secs) t.fracNs =
      (if t.isNeg then int64 (-(Int64.ofInt t.absNs).toInt) else .ok (Int64.ofInt t.absNs)).map
        fun nsFromOrigin => { bound with nsFromOrigin := nsFromOrigin, isSet := true } := by
  have hwrap : Int64.ofInt ((decimal.value t.secs * nsPerS + t.fracNs) % 2 ^ 64 : ℕ)
      = Int64.ofInt t.absNs := by
    have habs : decimal.value t.secs * nsPerS + t.fracNs = t.absNs := by norm_num [absNs, nsPerS]
    have hsize : ((2 ^ 64 : ℕ) : ℤ) = (Int64.size : ℤ) := by norm_num [Int64.size]
    rw [habs, ← Int64.toInt_inj, Int64.toInt_ofInt, Int64.toInt_ofInt, Int.natCast_mod, hsize,
      Int.emod_bmod]
  rw [storeSecs, hwrap]

theorem secs_lt (h : t.absNs < 2 ^ 63) : ¬ 2 ^ 64 ≤ decimal.value t.secs := by
  unfold absNs at h
  omega

theorem eq_of_ns_eq {u : SecsText} (h : t.ns = u.ns) :
    t.absNs = u.absNs ∧ (t.isNeg = u.isNeg ∨ t.absNs = 0) := by
  unfold ns at h
  cases ht : t.isNeg <;> cases hu : u.isNeg <;> simp [ht, hu] at h ⊢ <;> omega

def Exact (t : SecsText) : Except Trap (ℤ × TrimmerBound) → Prop
  | .error _ => False
  | .ok (status, bound) => status < 0 ∨ bound.isSet = true ∧ bound.nsFromOrigin.toInt = t.ns

/-- For a text `[-]s[.ns]`, the time is exact if and only if its number of nanoseconds, without the
sign, has 63 bits. Two texts which denote the same number have the same effect. -/
theorem setBoundFromStr_exact_iff (toTime : Bool → Tm → ℤ) (isGmt : Bool) (bound : TrimmerBound)
    (t u : SecsText) :
    (t.Exact (setBoundFromStr toTime isGmt bound t.text) ↔ t.absNs < 2 ^ 63) ∧
    (t.ns = u.ns → setBoundFromStr toTime isGmt bound t.text
      = setBoundFromStr toTime isGmt bound u.text) := by
  constructor
  · rw [setBoundFromStr_text, storeSecs_eq]
    constructor
    · intro hexact
      split at hexact
      · exact hexact.elim
      -- what is stored has 63 bits and a sign, whatever the number is
      have hlt := Int64.toInt_lt (.ofInt t.absNs)
      cases hneg : t.isNeg with
      | false =>
        simp only [hneg, Bool.false_eq_true, if_false, Except.map, Exact, ns] at hexact
        omega
      | true =>
        simp only [hneg, if_true, int64] at hexact
        split at hexact
        case isTrue hrange =>
          simp only [Except.map, Exact, ns, hneg, if_true,
            Int64.toInt_ofInt_of_le hrange.1 hrange.2] at hexact
          omega
        case isFalse => exact hexact.elim
    · intro hlt
      have hle : -2 ^ 63 ≤ -(t.absNs : ℤ) := by omega
      have hstored : (Int64.ofInt t.absNs).toInt = t.absNs :=
        Int64.toInt_ofInt_of_le (by omega) (by omega)
      rw [if_neg (secs_lt hlt)]
      cases hneg : t.isNeg with
      | false =>
        simp only [Bool.false_eq_true, if_false, Except.map, Exact, ns, hneg]
        exact .inr ⟨trivial, hstored⟩
      | true =>
        simp only [if_true, int64, hstored]
        rw [if_pos ⟨hle, by omega⟩]
        simp only [Except.map, Exact, ns, hneg, if_true]
        exact .inr ⟨trivial, Int64.toInt_ofInt_of_le hle (by omega)⟩
  · intro hns
    obtain ⟨habs, hneg⟩ := eq_of_ns_eq hns
    have hsecs : decimal.value t.secs = decimal.value u.secs := by
      have ht := t.fracNs_lt
      have hu := u.fracNs_lt
      unfold absNs at habs
      omega
    rw [setBoundFromStr_text, setBoundFromStr_text, storeSecs_eq, storeSecs_eq, ← habs, ← hsecs]
    rcases hneg with hneg | hzero
    · rw [hneg]
    · -- the sign of zero does not matter
      rw [hzero]
      cases t.isNeg <;> cases u.isNeg <;> rfl

end SecsText

theorem setBoundFromStr_overflows :
    (setBoundFromStr (fun _ _ => -1) true ⟨0, false, false, ⟨0, 0, 0, 0⟩⟩ "9223372037".toList).map
      (fun r => (r.1, r.2.nsFromOrigin)) = .ok (0, -9223372036709551616) ∧
    setBoundFromStr (fun _ _ => -1) true ⟨0, false, false, ⟨0, 0, 0, 0⟩⟩
      "18446744073709551616".toList = .error .assertion := by
  decide +kernel

end Babeltrace.TrimmerBoundStr
