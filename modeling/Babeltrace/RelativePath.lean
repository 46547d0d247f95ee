import Mathlib

/-!
# Relative paths

A list of items, each one a name or a step to the parent, is resolved from left to right. Its normal
form climbs first and then descends.
-/
namespace Babeltrace.RelativePath

variable {α : Type}

/-- One item from the path `p`; `none` is the parent. -/
def step (p : List α) : Option α → Option (List α)
  | some a => some (p ++ [a])
  | none => if p = [] then none else some p.dropLast

def resolve (base : List α) (items : List (Option α)) : Option (List α) :=
  items.foldlM step base

/-- A number of parents followed with names -/
structure Normal (α : Type) where
  climb : ℕ
  names : List α
  deriving DecidableEq

def Normal.add (n : Normal α) : Option α → Normal α
  | some a => ⟨n.climb, n.names ++ [a]⟩
  | none => if n.names = [] then ⟨n.climb + 1, []⟩ else ⟨n.climb, n.names.dropLast⟩

def normal (items : List (Option α)) : Normal α := items.foldl Normal.add ⟨0, []⟩

def excess (items : List (Option α)) : ℕ := (normal items).climb

/-- The path which a normal form leads to from `base` -/
def Normal.from (base : List α) (n : Normal α) : Option (List α) :=
  if n.climb ≤ base.length then some (base.take (base.length - n.climb) ++ n.names) else none

theorem Normal.add_some (n : Normal α) (a : α) : n.add (some a) = ⟨n.climb, n.names ++ [a]⟩ := rfl

theorem Normal.add_none_of_eq_nil {n : Normal α} (h : n.names = []) :
    n.add none = ⟨n.climb + 1, []⟩ := if_pos h

theorem Normal.add_none_of_ne_nil {n : Normal α} (h : n.names ≠ []) :
    n.add none = ⟨n.climb, n.names.dropLast⟩ := if_neg h

theorem Normal.from_add (base : List α) (n : Normal α) (item : Option α) :
    (n.add item).from base = (n.from base).bind (step · item) := by
  cases item with
  | some a =>
    rw [Normal.add_some]
    unfold Normal.from
    split <;> simp [step]
  | none =>
    by_cases hnames : n.names = []
    · rw [Normal.add_none_of_eq_nil hnames]
      unfold Normal.from
      simp only [hnames, List.append_nil]
      by_cases hlt : n.climb + 1 ≤ base.length
      · have hne : base.take (base.length - n.climb) ≠ [] := by
          intro h
          have hlen := congrArg List.length h
          rw [List.length_take, List.length_nil] at hlen
          omega
        have hdrop : (base.take (base.length - n.climb)).dropLast =
            base.take (base.length - (n.climb + 1)) := by
          rw [List.dropLast_eq_take, List.length_take, List.take_take]
          congr 1
          omega
        simp only [hlt, if_true, Nat.le_of_succ_le hlt, Option.bind_some, step, hne, if_false,
          hdrop]
      · by_cases hle : n.climb ≤ base.length
        · have h0 : base.length - n.climb = 0 := by omega
          simp [hlt, hle, step, h0]
        · simp [hlt, hle]
    · rw [Normal.add_none_of_ne_nil hnames]
      unfold Normal.from
      split
      · have hne : base.take (base.length - n.climb) ++ n.names ≠ [] := by simp [hnames]
        simp only [Option.bind_some, step, hne, if_false, List.dropLast_append_of_ne_nil hnames]
      · rfl

theorem foldlM_from (base : List α) (items : List (Option α)) (n : Normal α) :
    (n.from base).bind (fun p => items.foldlM step p) = (items.foldl Normal.add n).from base := by
  induction items generalizing n with
  | nil => simp
  | cons item items ih =>
    rw [List.foldl_cons, ← ih, Normal.from_add, Option.bind_assoc]
    rfl

theorem resolve_eq_from (base : List α) (items : List (Option α)) :
    resolve base items = (normal items).from base := by
  have h := foldlM_from base items ⟨0, []⟩
  rw [show (⟨0, []⟩ : Normal α).from base = some base by simp [Normal.from]] at h
  exact h

theorem resolve_cons (base : List α) (item : Option α) (items : List (Option α)) :
    resolve base (item :: items) = (step base item).bind (resolve · items) := rfl

theorem mem_of_resolve {base path : List α} {items : List (Option α)}
    (h : resolve base items = some path) {a : α} (ha : a ∈ path) : a ∈ base ∨ some a ∈ items := by
  induction items generalizing base with
  | nil =>
    cases h
    exact .inl ha
  | cons item items ih =>
    rw [resolve_cons] at h
    obtain ⟨base', hstep, h⟩ := Option.bind_eq_some_iff.mp h
    rcases ih h with hbase' | hitems
    · cases item with
      | some b =>
        cases hstep
        rcases List.mem_append.mp hbase' with hbase | hb
        · exact .inl hbase
        · rw [List.mem_singleton.mp hb]
          exact .inr List.mem_cons_self
      | none =>
        obtain ⟨-, hstep⟩ := Option.ite_none_left_eq_some.mp hstep
        cases hstep
        exact .inl (List.mem_of_mem_dropLast hbase')
    · exact .inr (List.mem_cons_of_mem _ hitems)

theorem length_le_of_resolve {base path : List α} {items : List (Option α)}
    (h : resolve base items = some path) : path.length ≤ base.length + items.length := by
  induction items generalizing base with
  | nil =>
    cases h
    exact Nat.le_refl _
  | cons item items ih =>
    rw [resolve_cons] at h
    obtain ⟨base', hstep, h⟩ := Option.bind_eq_some_iff.mp h
    have hbase' : base'.length ≤ base.length + 1 := by
      cases item with
      | some b =>
        cases hstep
        rw [List.length_append, List.length_singleton]
      | none =>
        obtain ⟨-, hstep⟩ := Option.ite_none_left_eq_some.mp hstep
        cases hstep
        rw [List.length_dropLast]
        omega
    have := ih h
    rw [List.length_cons]
    omega

theorem resolve_names (base names : List α) :
    resolve base (names.map some) = some (base ++ names) := by
  induction names generalizing base with
  | nil => simp [resolve]
  | cons a names ih =>
    rw [List.map_cons, resolve_cons, step, Option.bind_some, ih, List.append_assoc,
      List.singleton_append]

end Babeltrace.RelativePath
