import Mathlib
import Babeltrace.StarLanguage

/-!
# Star globbing

The star globbing functions of `common.c`: 42 is a star and 92 a backslash. The matcher only goes
back to its most recent star. Applied to a normalized pattern, it decides the language of the
original one, of which a backslash at the very end matches nothing (`starGlobMatch_normalize_iff`).
-/
namespace Babeltrace.StarGlob

open StarLanguage

def cString (bytes : List UInt8) : List UInt8 := bytes.takeWhile (· != 0)

/-! ## Normalization -/

/-- The loop of `bt_common_normalize_star_glob_pattern()` -/
def normalizeLoop (gotStar : Bool) : List UInt8 → List UInt8
  | [] => []
  | ch :: p =>
    if ch = 42 then
      if gotStar then normalizeLoop gotStar p else ch :: normalizeLoop true p
    else if ch = 92 then
      match p with
      | [] => [ch]
      | ch' :: p => ch :: ch' :: normalizeLoop false p
    else ch :: normalizeLoop false p

def normalizeStarGlobPattern (pattern : List UInt8) : List UInt8 :=
  normalizeLoop false (cString pattern)

/-! ## Matching -/

/-- What follows the character in the pattern, unless there's a mismatch or the end of the pattern
-/
def compareChar (c : UInt8) : List UInt8 → Option (List UInt8)
  | [] => none
  | ch :: p =>
    if ch = 92 then
      match p with
      | [] => none
      | ch :: p => if c = ch then some p else none
    else if c = ch then some p else none

theorem compareChar_length {c : UInt8} {p p' : List UInt8} (h : compareChar c p = some p') :
    p'.length ≤ p.length := by
  unfold compareChar at h
  split at h
  · cases h
  · split at h
    · split at h
      · cases h
      · split at h
        · cases h
          simp only [List.length_cons]
          omega
        · cases h
    · split at h
      · cases h
        simp only [List.length_cons]
        omega
      · cases h

/-- What remains of the pattern and of the candidate, and where to retry -/
structure Matcher where
  retryP : List UInt8
  retryC : List UInt8
  p : List UInt8
  c : List UInt8
  gotAStar : Bool
  p_le : p.length ≤ retryP.length
  c_le : c.length ≤ retryC.length

/-- From the `retry` label -/
def Matcher.retry (retryP retryC : List UInt8) (gotAStar : Bool) : Matcher :=
  ⟨retryP, retryC, retryP, retryC, gotAStar, Nat.le_refl _, Nat.le_refl _⟩

/-- The loop of `bt_common_star_glob_match()` and what follows it -/
def Matcher.run (m : Matcher) : Bool :=
  match hc : m.c with
  | [] => m.p = [] ∨ m.p = [42]
  | ch :: c =>
    if hstar : m.p.head? = some 42 then
      if m.p.tail = [] then true else (Matcher.retry m.p.tail m.c true).run
    else
      match hcmp : compareChar ch m.p with
      | none =>
        -- character mismatch or end of the pattern
        if m.gotAStar then (Matcher.retry m.retryP m.retryC.tail m.gotAStar).run else false
      | some p =>
        Matcher.run
          { m with
            p := p
            c := c
            p_le := Nat.le_trans (compareChar_length hcmp) m.p_le
            c_le := by
              have hle := m.c_le
              rw [hc] at hle
              exact Nat.le_of_succ_le hle }
termination_by m.retryP.length + m.retryC.length * m.retryC.length + m.c.length
decreasing_by
  · -- the pattern after the most recent star is shorter
    have hp_le := m.p_le
    have hsquare := Nat.mul_le_mul m.c_le m.c_le
    have hp : m.p.length ≠ 0 := by
      intro h
      rw [List.length_eq_zero_iff.mp h] at hstar
      cases hstar
    simp only [Matcher.retry, List.length_tail]
    omega
  · -- the candidate to retry with is shorter
    have hc_le := m.c_le
    rw [hc, List.length_cons] at hc_le
    obtain ⟨n, hn⟩ := Nat.exists_eq_add_of_le hc_le
    simp only [Matcher.retry, List.length_tail, hn, hc, List.length_cons]
    have hsquare : (c.length + 1 + n) * (c.length + 1 + n) =
        (c.length + 1 + n - 1) * (c.length + 1 + n - 1) + 2 * (c.length + n) + 1 := by
      rw [show c.length + 1 + n - 1 = c.length + n by omega]
      ring
    omega
  · simp only [hc, List.length_cons]
    omega

def starGlobMatch (pattern : List UInt8) (patternLen : ℕ) (candidate : List UInt8)
    (candidateLen : ℕ) : Bool :=
  (Matcher.retry ((cString pattern).take patternLen) ((cString candidate).take candidateLen)
    false).run

/-! ## Language of a pattern -/

/-- `last` tells what a backslash which no character follows matches. -/
def elems (last : UInt8 → Bool) : List UInt8 → List (Elem UInt8)
  | [] => []
  | ch :: p =>
    if ch = 42 then .star :: elems last p
    else if ch = 92 then
      match p with
      | [] => [.one last]
      | ch :: p => .one (· == ch) :: elems last p
    else .one (· == ch) :: elems last p

def patternElems : List UInt8 → List (Elem UInt8) := elems fun _ => false

def patternLanguage (pattern : List UInt8) : Language UInt8 := language (patternElems pattern)

section

variable {p : List UInt8}

theorem elems_star (last : UInt8 → Bool) (hstar : p.head? = some 42) :
    elems last p = .star :: elems last p.tail := by
  cases p with
  | nil => cases hstar
  | cons ch p =>
    rw [List.head?_cons, Option.some_inj] at hstar
    rw [elems.eq_def]
    simp [hstar]

theorem elems_escape (last : UInt8 → Bool) (ch : UInt8) :
    elems last (92 :: ch :: p) = .one (· == ch) :: elems last p := by
  rw [elems.eq_def]
  rfl

theorem elems_char (last : UInt8 → Bool) {ch : UInt8} (hstar : ch ≠ 42) (hbackslash : ch ≠ 92) :
    elems last (ch :: p) = .one (· == ch) :: elems last p := by
  rw [elems.eq_def]
  simp [hstar, hbackslash]

theorem patternElems_star (hstar : p.head? = some 42) :
    patternElems p = .star :: patternElems p.tail := elems_star _ hstar

theorem compareChar_eq (hp : p ≠ []) (hstar : p.head? ≠ some 42) :
    ∃ ok p', patternElems p = .one ok :: patternElems p' ∧
      ∀ ch, compareChar ch p = if ok ch = true then some p' else none := by
  cases p with
  | nil => exact absurd rfl hp
  | cons ch p =>
    have hch : ch ≠ 42 := fun heq => hstar (congrArg some heq)
    by_cases hbackslash : ch = 92
    · subst hbackslash
      cases p with
      | nil => exact ⟨fun _ => false, [], rfl, by simp [compareChar]⟩
      | cons ch' p => exact ⟨(· == ch'), p, elems_escape _ ch', by simp [compareChar]⟩
    · exact ⟨(· == ch), p, elems_char _ hch hbackslash, by simp [compareChar, hbackslash]⟩

theorem notMem_of_compareChar {ch : UInt8} {c : List UInt8} (hstar : p.head? ≠ some 42)
    (hcmp : compareChar ch p = none) : ch :: c ∉ patternLanguage p := by
  intro hmem
  by_cases hp : p = []
  · rw [hp] at hmem
    cases mem_language_nil.mp hmem
  · obtain ⟨ok, p', helems, hcompare⟩ := compareChar_eq hp hstar
    rw [patternLanguage, helems, mem_language_one] at hmem
    obtain ⟨a, s', heq, hok, -⟩ := hmem
    cases heq
    rw [hcompare, if_pos hok] at hcmp
    cases hcmp

theorem patternElems_eq_nil : patternElems p = [] ↔ p = [] := by
  constructor
  · intro h
    by_contra hp
    by_cases hstar : p.head? = some 42
    · rw [patternElems_star hstar] at h
      cases h
    · obtain ⟨ok, p', heq, -⟩ := compareChar_eq hp hstar
      rw [heq] at h
      cases h
  · rintro rfl
    rfl

theorem patternElems_eq_star : patternElems p = [.star] ↔ p = [42] := by
  constructor
  · intro h
    by_cases hstar : p.head? = some 42
    · rw [patternElems_star hstar, List.cons_inj_right, patternElems_eq_nil] at h
      rw [← List.cons_head?_tail hstar, h]
    · have hp : p ≠ [] := by
        rintro rfl
        cases h
      obtain ⟨ok, p', heq, -⟩ := compareChar_eq hp hstar
      rw [heq] at h
      cases h
  · rintro rfl
    rfl

end

/-! ## Correctness of the matcher -/

namespace Matcher

structure Inv (m : Matcher) : Prop where
  reduced : Reduced (patternElems m.p)
  reduced_retry : Reduced (patternElems m.retryP)
  covers : m.gotAStar = true →
    Covers (patternElems m.retryP) m.retryC.tail (patternElems m.p) m.c

def Matches (m : Matcher) : Prop :=
  m.c ∈ patternLanguage m.p ∨
    m.gotAStar = true ∧ MatchesSuffix (patternElems m.retryP) m.retryC.tail

theorem inv_retry {retryP retryC : List UInt8} {gotAStar : Bool}
    (hreduced : Reduced (patternElems retryP)) : (retry retryP retryC gotAStar).Inv :=
  ⟨hreduced, hreduced, fun _ => Covers.of_suffix (List.tail_suffix retryC)⟩

theorem matches_retry {retryP retryC : List UInt8} :
    (retry retryP retryC true).Matches ↔ MatchesSuffix (patternElems retryP) retryC := by
  rw [matchesSuffix_iff]
  simp [Matches, retry, patternLanguage]

theorem run_iff (m : Matcher) (hinv : m.Inv) : m.run = true ↔ m.Matches := by
  fun_induction Matcher.run m with
  | case1 m hc =>
    -- the end of the candidate
    have hnil : [] ∈ language (patternElems m.p) ↔ m.p = [] ∨ m.p = [42] := by
      rw [nil_mem_language_iff hinv.reduced, patternElems_eq_nil, patternElems_eq_star]
    rw [decide_eq_true_eq, ← hnil, Matches, patternLanguage, hc]
    refine ⟨Or.inl, fun h => h.elim id fun hretry => ?_⟩
    obtain ⟨s, hs, hmem⟩ := hinv.covers hretry.1 hretry.2
    rw [hc, List.suffix_nil] at hs
    rwa [hs] at hmem
  | case2 m ch c hc hstar htail =>
    refine ⟨fun _ => Or.inl ?_, fun _ => rfl⟩
    rw [patternLanguage, patternElems_star hstar, htail]
    exact mem_language_star.mpr ⟨[], List.nil_suffix, mem_language_nil.mpr rfl⟩
  | case3 m ch c hc hstar htail ih =>
    -- only what follows this star matters now
    have helems := patternElems_star hstar
    have hreduced := hinv.reduced
    rw [helems] at hreduced
    rw [ih (inv_retry hreduced.of_cons), matches_retry]
    have hiff : MatchesSuffix (patternElems m.p.tail) m.c ↔ m.c ∈ patternLanguage m.p := by
      rw [patternLanguage, helems, mem_language_star]
      rfl
    rw [hiff]
    refine ⟨Or.inl, fun h => h.elim id fun hretry => ?_⟩
    have hcovers := hinv.covers hretry.1
    rw [patternLanguage, helems]
    rw [helems] at hcovers
    exact hcovers.star hretry.2
  | case4 m ch c hc hstar hcmp hgot ih =>
    rw [ih (inv_retry hinv.reduced_retry), hgot, matches_retry, Matches, hc]
    simp [notMem_of_compareChar hstar hcmp, hgot]
  | case5 m ch c hc hstar hcmp hgot =>
    rw [Matches, hc]
    simp [notMem_of_compareChar hstar hcmp, hgot]
  | case6 m ch c hc hstar p hcmp ih =>
    have hp : m.p ≠ [] := by
      intro heq
      rw [heq] at hcmp
      cases hcmp
    obtain ⟨ok, p', helems, hcompare⟩ := compareChar_eq hp hstar
    obtain ⟨hok, rfl⟩ : ok ch = true ∧ p' = p := by
      simpa [hcompare] using hcmp
    have hreduced := hinv.reduced
    have hcovers := hinv.covers
    rw [helems] at hreduced hcovers
    rw [hc] at hcovers
    rw [ih ⟨hreduced.of_cons, hinv.reduced_retry, fun hgot => (hcovers hgot).one⟩]
    have hiff : c ∈ patternLanguage p' ↔ m.c ∈ patternLanguage m.p := by
      rw [patternLanguage, patternLanguage, helems, hc, mem_language_one]
      simp [hok]
    exact or_congr_left hiff

end Matcher

/-! ## Normalized patterns -/

def before (gotStar : Bool) : List (Elem UInt8) := if gotStar then [.star] else []

theorem normalizeLoop_sublist (gotStar : Bool) (p : List UInt8) :
    (normalizeLoop gotStar p).Sublist p := by
  fun_induction normalizeLoop gotStar p with
  | case1 => exact List.Sublist.refl _
  | case2 p ih => exact ih.cons _
  | case3 gotStar p hgot ih => exact ih.cons_cons _
  | case4 gotStar => exact List.Sublist.refl _
  | case5 gotStar ch p _ ih => exact (ih.cons_cons _).cons_cons _
  | case6 gotStar ch p _ _ ih => exact ih.cons_cons _

theorem language_normalizeLoop (last : UInt8 → Bool) (gotStar : Bool) (p : List UInt8) :
    language (before gotStar ++ elems last (normalizeLoop gotStar p)) =
      language (before gotStar ++ elems last p) := by
  fun_induction normalizeLoop gotStar p with
  | case1 => rfl
  | case2 p ih =>
    rw [ih, elems_star last (p := 42 :: p) rfl]
    exact language_star_star.symm
  | case3 gotStar p hgot ih =>
    rw [elems_star last (p := 42 :: _) rfl, elems_star last (p := 42 :: p) rfl, language_append,
      language_append]
    exact congrArg _ ih
  | case4 gotStar => rfl
  | case5 gotStar ch p _ ih =>
    rw [elems_escape, elems_escape, language_append, language_append, language_cons, language_cons]
    exact congrArg (fun l => _ * (_ * l)) ih
  | case6 gotStar ch p hstar hbackslash ih =>
    rw [elems_char last hstar hbackslash, elems_char last hstar hbackslash, language_append,
      language_append, language_cons, language_cons]
    exact congrArg (fun l => _ * (_ * l)) ih

theorem reduced_normalizeLoop (last : UInt8 → Bool) (gotStar : Bool) (p : List UInt8) :
    Reduced (before gotStar ++ elems last (normalizeLoop gotStar p)) := by
  have hone : ∀ gotStar ok p, Reduced p → Reduced (before gotStar ++ .one ok :: p) := by
    rintro (_ | _) ok p h
    · exact h.one
    · exact h.one.star
  fun_induction normalizeLoop gotStar p with
  | case1 gotStar => cases gotStar <;> simp [before, elems, Reduced]
  | case2 p ih => exact ih
  | case3 gotStar p hgot ih =>
    rw [elems_star last (p := 42 :: _) rfl, Bool.eq_false_iff.mpr hgot]
    exact ih
  | case4 gotStar => exact hone gotStar last [] List.isChain_nil
  | case5 gotStar ch p _ ih =>
    rw [elems_escape]
    exact hone _ _ _ ih
  | case6 gotStar ch p hstar hbackslash ih =>
    rw [elems_char last hstar hbackslash]
    exact hone _ _ _ ih

theorem notMem_cString (bytes : List UInt8) : 0 ∉ cString bytes := by
  intro h
  simpa using List.mem_takeWhile_imp h

theorem cString_of_notMem {bytes : List UInt8} (h : 0 ∉ bytes) : cString bytes = bytes := by
  rw [cString, List.takeWhile_eq_self_iff]
  intro ch hch
  have hne : ch ≠ 0 := fun heq => h (heq ▸ hch)
  simp [hne]

theorem cString_normalizeStarGlobPattern (pattern : List UInt8) :
    cString (normalizeStarGlobPattern pattern) = normalizeStarGlobPattern pattern :=
  cString_of_notMem fun h => notMem_cString pattern ((normalizeLoop_sublist _ _).subset h)

/-- The matcher, applied to a normalized pattern, decides the language of the original pattern,
which normalization keeps. -/
theorem starGlobMatch_normalize_iff (pattern candidate : List UInt8) (patternLen candidateLen : ℕ)
    (hlen : (normalizeStarGlobPattern pattern).length ≤ patternLen) :
    (starGlobMatch (normalizeStarGlobPattern pattern) patternLen candidate candidateLen = true ↔
      (cString candidate).take candidateLen ∈ patternLanguage (cString pattern)) ∧
    patternLanguage (normalizeStarGlobPattern pattern) = patternLanguage (cString pattern) := by
  have hlanguage : patternLanguage (normalizeStarGlobPattern pattern) =
      patternLanguage (cString pattern) := language_normalizeLoop _ false (cString pattern)
  have hreduced : Reduced (patternElems (normalizeStarGlobPattern pattern)) :=
    reduced_normalizeLoop _ false (cString pattern)
  refine ⟨?_, hlanguage⟩
  rw [starGlobMatch, cString_normalizeStarGlobPattern, List.take_of_length_le hlen,
    Matcher.run_iff _ (Matcher.inv_retry hreduced), ← hlanguage]
  simp [Matcher.Matches, Matcher.retry]

/-- `a**b\**` (`a*b\**` once it's normalized) matches `abbb*`. -/
theorem starGlobMatch_normalize_literal_star :
    normalizeStarGlobPattern [97, 42, 42, 98, 92, 42, 42] = [97, 42, 98, 92, 42, 42] ∧
      [97, 98, 98, 98, 42] ∈ patternLanguage (cString [97, 42, 42, 98, 92, 42, 42]) :=
  ⟨by decide,
    (starGlobMatch_normalize_iff [97, 42, 42, 98, 92, 42, 42] [97, 98, 98, 98, 42] 6 5
      (by decide)).1.mp (by decide +kernel)⟩

/-- When a backslash at the very end matches itself, the pattern which is a single backslash matches
a backslash, but not for the matcher. -/
theorem starGlobMatch_last_backslash :
    [92] ∈ language (elems (· == 92) [92]) ∧
      starGlobMatch (normalizeStarGlobPattern [92]) 1 [92] 1 = false :=
  ⟨mem_language_one.mpr ⟨92, [], rfl, rfl, mem_language_nil.mpr rfl⟩, by decide +kernel⟩

end Babeltrace.StarGlob
