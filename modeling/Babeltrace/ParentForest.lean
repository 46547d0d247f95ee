import Mathlib

/-!
# Forests of parent pointers

Nodes which have a parent or none, where each node leads to a root.
-/
namespace Babeltrace.ParentForest

variable {α : Type}

/-- `o` is `x` or one of its ancestors. -/
def Below (parent : α → Option α) (x o : α) : Prop :=
  Relation.ReflTransGen (fun a b => parent a = some b) x o

inductive Depth (parent : α → Option α) : α → ℕ → Prop
  | root {o : α} (h : parent o = none) : Depth parent o 0
  | child {o p : α} {d : ℕ} (h : parent o = some p) (hd : Depth parent p d) : Depth parent o (d + 1)

/-- The parents are among `nodes`, and each node leads to a root. -/
structure Forest (nodes : Finset α) (parent : α → Option α) : Prop where
  mem : ∀ {o p}, parent o = some p → o ∈ nodes ∧ p ∈ nodes
  depth : ∀ o, ∃ d, Depth parent o d

/-- `x` and `y` have the same root. -/
def SameTree (parent : α → Option α) (x y : α) : Prop :=
  ∃ r, parent r = none ∧ Below parent x r ∧ Below parent y r

section

variable {parent : α → Option α} {nodes : Finset α} {x o p c c' r r' : α} {d d' : ℕ}

theorem Below.refl (o : α) : Below parent o o := Relation.ReflTransGen.refl

theorem below_parent (h : parent o = some p) : Below parent o p := .single h

theorem Below.trans (hxo : Below parent x o) (hop : Below parent o p) : Below parent x p :=
  Relation.ReflTransGen.trans hxo hop

theorem below_of_parent (h : parent o = some p) (hx : Below parent x o) : Below parent x p :=
  Relation.ReflTransGen.tail hx h

theorem below_root_iff (h : parent r = none) : Below parent r x ↔ x = r := by
  constructor
  · intro hx
    rcases Relation.ReflTransGen.cases_head hx with rfl | ⟨p, hp, -⟩
    · rfl
    · rw [h] at hp
      cases hp
  · rintro rfl
    exact .refl _

theorem below_child_iff (h : parent o = some p) : Below parent o x ↔ x = o ∨ Below parent p x := by
  constructor
  · intro hx
    rcases Relation.ReflTransGen.cases_head hx with rfl | ⟨p', hp', hx⟩
    · exact .inl rfl
    · obtain rfl := Option.some.inj (h.symm.trans hp')
      exact .inr hx
  · rintro (rfl | hx)
    · exact .refl _
    · exact (below_parent h).trans hx

theorem below_iff : Below parent x o ↔ x = o ∨ ∃ c, parent c = some o ∧ Below parent x c := by
  constructor
  · intro hx
    rcases Relation.ReflTransGen.cases_tail hx with rfl | ⟨c, hx, hc⟩
    · exact .inl rfl
    · exact .inr ⟨c, hc, hx⟩
  · rintro (rfl | ⟨c, hc, hx⟩)
    · exact .refl _
    · exact below_of_parent hc hx

theorem Depth.unique (h : Depth parent o d) (h' : Depth parent o d') : d = d' := by
  induction h generalizing d' with
  | root h =>
    cases h' with
    | root => rfl
    | child hp => simp [h] at hp
  | child h hd ih =>
    cases h' with
    | root hp => simp [h] at hp
    | child hp hd' =>
      obtain rfl := Option.some.inj (h.symm.trans hp)
      rw [ih hd']

theorem Depth.le_of_below (hx : Below parent x o) (h : Depth parent x d)
    (h' : Depth parent o d') : d' ≤ d := by
  induction h with
  | root hroot =>
    obtain rfl := (below_root_iff hroot).mp hx
    exact (h'.unique (.root hroot)).le
  | child hp hd ih =>
    rcases (below_child_iff hp).mp hx with rfl | hx
    · exact (h'.unique (.child hp hd)).le
    · exact Nat.le_succ_of_le (ih hx)

theorem Depth.exists_root (h : Depth parent o d) : ∃ r, parent r = none ∧ Below parent o r := by
  induction h with
  | root h => exact ⟨_, h, .refl _⟩
  | child h _ ih =>
    obtain ⟨r, hr, hbelow⟩ := ih
    exact ⟨r, hr, (below_parent h).trans hbelow⟩

theorem below_total (hx : Below parent x o) (hx' : Below parent x r) :
    Below parent o r ∨ Below parent r o := by
  refine Relation.ReflTransGen.total_of_right_unique (fun a b b' hb hb' => ?_) hx hx'
  exact Option.some.inj (hb.symm.trans hb')

theorem root_unique (hx : Below parent x r) (hx' : Below parent x r') (hr : parent r = none)
    (hr' : parent r' = none) : r = r' := by
  rcases below_total hx hx' with h | h
  · exact ((below_root_iff hr).mp h).symm
  · exact (below_root_iff hr').mp h

namespace Forest

variable (hf : Forest nodes parent)

include hf

theorem not_below_child (h : parent c = some o) : ¬Below parent o c := by
  intro hbelow
  obtain ⟨d, hd⟩ := hf.depth o
  have := Depth.le_of_below hbelow hd (.child h hd)
  omega

theorem ne_parent (h : parent o = some p) : o ≠ p := by
  rintro rfl
  exact hf.not_below_child h (.refl _)

theorem siblings_eq (hc : parent c = some o) (hc' : parent c' = some o) (hx : Below parent x c)
    (hx' : Below parent x c') : c = c' := by
  rcases below_total hx hx' with h | h
  · rcases (below_child_iff hc).mp h with rfl | h
    · rfl
    · exact absurd h (hf.not_below_child hc')
  · rcases (below_child_iff hc').mp h with rfl | h
    · rfl
    · exact absurd h (hf.not_below_child hc)

theorem exists_root (o : α) : ∃ r, parent r = none ∧ Below parent o r := by
  obtain ⟨d, hd⟩ := hf.depth o
  exact hd.exists_root

theorem below_root (hr : parent r = none) (hor : Below parent o r) (hox : Below parent o x) :
    Below parent x r := by
  obtain ⟨r', hr', hxr'⟩ := hf.exists_root x
  obtain rfl := root_unique hor (hox.trans hxr') hr hr'
  exact hxr'

theorem mem_of_below (ho : o ∈ nodes) (hx : Below parent o x) : x ∈ nodes := by
  rcases Relation.ReflTransGen.cases_tail hx with rfl | ⟨c, -, hc⟩
  · exact ho
  · exact (hf.mem hc).2

theorem mem_of_below_left (ho : o ∈ nodes) (hx : Below parent x o) : x ∈ nodes := by
  rcases Relation.ReflTransGen.cases_head hx with rfl | ⟨p, hp, -⟩
  · exact ho
  · exact (hf.mem hp).1

theorem depth_lt (ho : o ∈ nodes) (hd : Depth parent o d) : d < nodes.card := by
  have hancestor : ∀ k ≤ d, ∃ x ∈ nodes, Depth parent x k := by
    induction hd with
    | root h =>
      intro k hk
      exact ⟨_, ho, Nat.le_zero.mp hk ▸ .root h⟩
    | child h hd ih =>
      intro k hk
      rcases Nat.lt_or_ge k (_ + 1) with hlt | hge
      · exact ih (hf.mem h).2 k (Nat.le_of_lt_succ hlt)
      · exact ⟨_, ho, Nat.le_antisymm hk hge ▸ .child h hd⟩
  have : Nonempty α := ⟨o⟩
  choose! ancestor hmem hdepth using hancestor
  have hcard := Finset.card_le_card_of_injOn (s := Finset.range (d + 1)) ancestor
    (fun k hk => hmem k (Nat.le_of_lt_succ (Finset.mem_range.mp hk))) ?_
  · rwa [Finset.card_range] at hcard
  · intro k hk k' hk' heq
    have hk := hdepth k (Nat.le_of_lt_succ (Finset.mem_range.mp hk))
    have hk' := hdepth k' (Nat.le_of_lt_succ (Finset.mem_range.mp hk'))
    exact hk.unique (heq ▸ hk')

theorem induction_up {P : α → Prop} (h : ∀ o ∈ nodes, (∀ c, parent c = some o → P c) → P o) :
    ∀ o ∈ nodes, P o := by
  have hdepth : ∀ k o d, o ∈ nodes → Depth parent o d → nodes.card ≤ d + k → P o := by
    intro k
    induction k with
    | zero =>
      intro o d ho hd hk
      have := hf.depth_lt ho hd
      omega
    | succ k ih =>
      intro o d ho hd hk
      exact h o ho fun c hc => ih c (d + 1) (hf.mem hc).1 (.child hc hd) (by omega)
  intro o ho
  obtain ⟨d, hd⟩ := hf.depth o
  exact hdepth nodes.card o d ho hd (Nat.le_add_left _ _)

/-! ## Links -/

variable [DecidableEq α]

omit hf in
theorem parent_link (hc : parent c = none) {o q : α} (h : parent o = some q) :
    Function.update parent c (some p) o = some q := by
  rw [Function.update_of_ne, h]
  rintro rfl
  rw [hc] at h
  cases h

omit hf in
theorem depth_link_of_not_below (hx : Depth parent x d) (h : ¬Below parent x c) :
    Depth (Function.update parent c (some p)) x d := by
  have hne : ∀ {x}, ¬Below parent x c → x ≠ c := by
    rintro x h rfl
    exact h (.refl _)
  induction hx with
  | root hroot => exact .root (by rwa [Function.update_of_ne (hne h)])
  | child hparent _ ih =>
    refine .child (by rwa [Function.update_of_ne (hne h)]) (ih fun hbelow => h ?_)
    exact (below_parent hparent).trans hbelow

theorem link (hc : parent c = none) (hcmem : c ∈ nodes) (hp : p ∈ nodes) (h : ¬Below parent p c) :
    Forest nodes (Function.update parent c (some p)) where
  mem := by
    intro o q hq
    by_cases ho : o = c
    · subst ho
      rw [Function.update_self] at hq
      exact ⟨hcmem, Option.some.inj hq ▸ hp⟩
    · rw [Function.update_of_ne ho] at hq
      exact hf.mem hq
  depth := by
    obtain ⟨dp, hdp⟩ := hf.depth p
    have hdc : Depth (Function.update parent c (some p)) c (dp + 1) :=
      .child (Function.update_self _ _ _) (depth_link_of_not_below hdp h)
    intro o
    obtain ⟨d, hd⟩ := hf.depth o
    induction hd with
    | @root o hroot =>
      by_cases ho : o = c
      · subst ho
        exact ⟨_, hdc⟩
      · exact ⟨0, .root (by rwa [Function.update_of_ne ho])⟩
    | child hparent _ ih =>
      obtain ⟨d, hd⟩ := ih
      exact ⟨d + 1, .child (parent_link hc hparent) hd⟩

omit hf in
theorem below_link (hc : parent c = none) {x o : α} (h : Below parent x o) :
    Below (Function.update parent c (some p)) x o :=
  Relation.ReflTransGen.mono (fun _ _ hq => parent_link hc hq) _ _ h

omit hf in
theorem below_of_link (h : ¬Below parent x c) {o : α}
    (hx : Below (Function.update parent c (some p)) x o) : Below parent x o := by
  induction hx using Relation.ReflTransGen.head_induction_on with
  | refl => exact .refl _
  | @head x y hxy _ ih =>
    have hne : x ≠ c := by
      rintro rfl
      exact h (.refl _)
    rw [Function.update_of_ne hne] at hxy
    exact (below_parent hxy).trans (ih fun hy => h ((below_parent hxy).trans hy))

end Forest

end

end Babeltrace.ParentForest
