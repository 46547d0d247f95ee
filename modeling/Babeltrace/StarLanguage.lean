import Mathlib

/-!
# Patterns with stars

An element of a pattern is either a star or a symbol predicate. A matcher which only goes back to
the most recent star is complete because of `Covers`.
-/
namespace Babeltrace.StarLanguage

inductive Elem (α : Type*)
  | star
  | one (ok : α → Bool)

variable {α : Type*}

def Elem.language : Elem α → Language α
  | star => ⊤
  | one ok => {s | ∃ a, ok a = true ∧ s = [a]}

def language (pattern : List (Elem α)) : Language α := (pattern.map Elem.language).prod

variable {p p' q : List (Elem α)} {c c' s : List α} {ok : α → Bool}

@[simp] theorem mem_language_nil : s ∈ language ([] : List (Elem α)) ↔ s = [] := Language.mem_one s

theorem language_cons (e : Elem α) : language (e :: p) = e.language * language p := by
  rw [language, List.map_cons, List.prod_cons, language]

theorem language_append : language (p ++ q) = language p * language q := by
  rw [language, List.map_append, List.prod_append, language, language]

theorem mem_language_one :
    s ∈ language (.one ok :: p) ↔ ∃ a s', s = a :: s' ∧ ok a = true ∧ s' ∈ language p := by
  rw [language_cons, Language.mem_mul]
  constructor
  · rintro ⟨_, ⟨a, hok, rfl⟩, s', hs', rfl⟩
    exact ⟨a, s', rfl, hok, hs'⟩
  · rintro ⟨a, s', rfl, hok, hs'⟩
    exact ⟨[a], ⟨a, hok, rfl⟩, s', hs', rfl⟩

theorem mem_language_star :
    s ∈ language (.star :: p) ↔ ∃ s', s' <:+ s ∧ s' ∈ language p := by
  rw [language_cons, Language.mem_mul]
  constructor
  · rintro ⟨w, -, s', hs', rfl⟩
    exact ⟨s', List.suffix_append w s', hs'⟩
  · rintro ⟨s', ⟨w, rfl⟩, hs'⟩
    exact ⟨w, trivial, s', hs', rfl⟩

theorem mem_language_star_of_suffix (h : s ∈ language (.star :: p)) (hs : s <:+ c) :
    c ∈ language (.star :: p) := by
  obtain ⟨s', hs', hp⟩ := mem_language_star.mp h
  exact mem_language_star.mpr ⟨s', hs'.trans hs, hp⟩

theorem language_star_star : language (.star :: .star :: p) = language (.star :: p) := by
  ext s
  constructor
  · intro h
    obtain ⟨s', hs', hp⟩ := mem_language_star.mp h
    exact mem_language_star_of_suffix hp hs'
  · intro h
    exact mem_language_star.mpr ⟨s, List.suffix_refl s, h⟩

def Reduced (p : List (Elem α)) : Prop := p.IsChain fun e e' => e = .star → e' ≠ .star

theorem Reduced.of_cons {e : Elem α} (h : Reduced (e :: p)) : Reduced p :=
  List.isChain_of_isChain_cons h

theorem Reduced.one (h : Reduced p) : Reduced (.one ok :: p) :=
  List.isChain_cons.mpr ⟨fun _ _ heq => (by cases heq), h⟩

theorem Reduced.star (h : Reduced (.one ok :: p)) : Reduced (.star :: .one ok :: p) :=
  List.isChain_cons_cons.mpr ⟨fun _ heq => (by cases heq), h⟩

theorem nil_mem_language_iff (hp : Reduced p) : [] ∈ language p ↔ p = [] ∨ p = [.star] := by
  constructor
  · intro h
    match p, hp, h with
    | [], _, _ => exact Or.inl rfl
    | [.star], _, _ => exact Or.inr rfl
    | .one ok :: p, _, h =>
      obtain ⟨a, s', heq, -⟩ := mem_language_one.mp h
      cases heq
    | .star :: .star :: p, hp, _ => exact absurd rfl ((List.isChain_cons_cons.mp hp).1 rfl)
    | .star :: .one ok :: p, _, h =>
      obtain ⟨s', hs', hone⟩ := mem_language_star.mp h
      obtain ⟨a, s'', rfl, -⟩ := mem_language_one.mp hone
      cases List.suffix_nil.mp hs'
  · rintro (rfl | rfl)
    · exact mem_language_nil.mpr rfl
    · exact mem_language_star.mpr ⟨[], List.suffix_refl [], mem_language_nil.mpr rfl⟩

theorem suffix_iff_eq_or_suffix_tail : s <:+ c ↔ s = c ∨ s <:+ c.tail := by
  cases c with
  | nil => simp
  | cons a c => exact List.suffix_cons_iff

/-- Some suffix of `c` matches `p`. -/
def MatchesSuffix (p : List (Elem α)) (c : List α) : Prop := ∃ s, s <:+ c ∧ s ∈ language p

theorem matchesSuffix_iff : MatchesSuffix p c ↔ c ∈ language p ∨ MatchesSuffix p c.tail := by
  simp only [MatchesSuffix, suffix_iff_eq_or_suffix_tail (c := c), or_and_right, exists_or,
    exists_eq_left]

def Covers (p : List (Elem α)) (c : List α) (p' : List (Elem α)) (c' : List α) : Prop :=
  MatchesSuffix p c → MatchesSuffix p' c'

theorem Covers.of_suffix (h : c <:+ c') : Covers p c p c' := by
  rintro ⟨s, hs, hp⟩
  exact ⟨s, hs.trans h, hp⟩

theorem Covers.one {a : α} (h : Covers p c (.one ok :: p') (a :: c')) : Covers p c p' c' := by
  intro hp
  obtain ⟨s, hs, hone⟩ := h hp
  obtain ⟨b, s', rfl, -, hp'⟩ := mem_language_one.mp hone
  rcases List.suffix_cons_iff.mp hs with heq | hs
  · rw [(List.cons.inj heq).2] at hp'
    exact ⟨c', List.suffix_refl c', hp'⟩
  · exact ⟨s', (List.suffix_cons b s').trans hs, hp'⟩

theorem Covers.star (h : Covers p c (.star :: p') c') (hp : MatchesSuffix p c) :
    c' ∈ language (.star :: p') := by
  obtain ⟨s, hs, hstar⟩ := h hp
  exact mem_language_star_of_suffix hstar hs

end Babeltrace.StarLanguage
