import Mathlib
import Babeltrace.PrioHeap

/-!
# Runs of a priority heap

`bt2c::PrioHeap` (`prio-heap.hpp`): any sequence of operations, with a comparator which is a strict
weak ordering. A heap which doesn't pass `_validate()` has no next state.
-/
namespace Babeltrace.PrioHeap

/-! ## Model -/

inductive Op (T : Type)
  | insert (elem : T)
  | removeTop
  | replaceTop (elem : T)
  | clear

/-- With the elements which operations inserted and removed so far -/
structure State (T : Type) where
  elems : List T := []
  inserted : Multiset T := 0
  removed : Multiset T := 0

variable {T : Type}

def State.top (s : State T) : Option T := s.elems.head?

section

variable (gt : T → T → Bool)

def validate (elems : List T) : Bool :=
  match elems with
  | [] => true
  | front :: others => others.all fun elem => !gt elem front

/-- `removeTop()` and `replaceTop()` need a top element. -/
def State.apply (s : State T) : Op T → Option (State T)
  | .insert elem => some ⟨insert gt s.elems elem, elem ::ₘ s.inserted, s.removed⟩
  | .removeTop => s.top.map fun top => ⟨removeTop gt s.elems, s.inserted, top ::ₘ s.removed⟩
  | .replaceTop elem =>
    s.top.map fun top => ⟨replaceTop gt s.elems elem, elem ::ₘ s.inserted, top ::ₘ s.removed⟩
  | .clear => some ⟨[], s.inserted, s.elems + s.removed⟩

def step (s : State T) (op : Op T) : Option (State T) :=
  (s.apply gt op).filter fun s' => validate gt s'.elems

def run (ops : List (Op T)) : Option (State T) := ops.foldlM (step gt) {}

end

def Op.needsTop : Op T → Bool
  | .insert _ | .clear => false
  | .removeTop | .replaceTop _ => true

/-! ## Order -/

variable {gt : T → T → Bool} {s s' : State T} {elems : List T} {top : T} {op : Op T}

/-- An element comes before those which are not greater. -/
@[reducible]
def notGreater (h : IsStrictWeakOrder T fun a b => gt a b = true) : Preorder T where
  le a b := gt b a = false
  le_refl a := Bool.eq_false_iff.mpr (h.irrefl a)
  le_trans a b c hab hbc := by
    rw [Bool.eq_false_iff] at hab hbc ⊢
    intro hca
    have hab' : gt a b ≠ true := fun hgt => hbc (h.trans c a b hca hgt)
    have hbc' : gt b c ≠ true := fun hgt => hab (h.trans b c a hgt hca)
    exact (h.incomp_trans a b c ⟨hab', hab⟩ ⟨hbc', hbc⟩).2 hca

theorem respects_notGreater (h : IsStrictWeakOrder T fun a b => gt a b = true) :
    letI := notGreater h
    Respects gt (id : T → T) := by
  intro a b
  refine ⟨fun hgt => ?_, id⟩
  rw [id, id]
  exact Bool.eq_false_iff.mpr fun hgt' => h.irrefl a (h.trans a b a hgt hgt')

/-! ## Invariant -/

structure State.Wf (gt : T → T → Bool) (s : State T) : Prop where
  order : ∀ i parent child, i ≠ 0 → s.elems[parentPos i]? = some parent →
    s.elems[i]? = some child → gt child parent = false
  balance : (s.elems : Multiset T) + s.removed = s.inserted

theorem State.top_eq_some (h : s.top = some top) : s.elems = top :: s.elems.tail := by
  unfold State.top at h
  exact (List.cons_head?_tail h).symm

theorem State.apply_eq_none_iff (gt : T → T → Bool) (s : State T) (op : Op T) :
    s.apply gt op = none ↔ op.needsTop = true ∧ s.elems = [] := by
  cases op <;> simp [State.apply, Op.needsTop, State.top]

theorem replaceTop_perm_insert (hne : elems ≠ []) (elem : T) :
    (replaceTop gt elems elem).Perm (insert gt (removeTop gt elems) elem) :=
  (replaceTop_perm hne elem).trans
    (((removeTop_perm elems).symm.cons elem).trans (insert_perm _ elem).symm)

theorem IsHeap.order {h : IsStrictWeakOrder T fun a b => gt a b = true}
    (hheap : letI := notGreater h; IsHeap (id : T → T) elems) :
    ∀ i parent child, i ≠ 0 → elems[parentPos i]? = some parent → elems[i]? = some child →
      gt child parent = false := by
  intro i parent child hi hparent hchild
  exact hheap i parent child hi trivial hparent hchild

section
variable (h : IsStrictWeakOrder T fun a b => gt a b = true)
include h

theorem State.Wf.isHeap (hs : s.Wf gt) :
    letI := notGreater h
    IsHeap (id : T → T) s.elems := by
  intro i parent child hi _ hparent hchild
  exact hs.order i parent child hi hparent hchild

theorem State.Wf.top_le (hs : s.Wf gt) (htop : s.top = some top) :
    ∀ elem ∈ s.elems, gt elem top = false := by
  let _ := notGreater h
  refine (hs.isHeap h).top_le ?_
  rwa [State.top, List.head?_eq_getElem?] at htop

theorem State.Wf.validate (hs : s.Wf gt) : validate gt s.elems = true := by
  cases helems : s.elems with
  | nil => rfl
  | cons front others =>
    have htop : s.top = some front := by rw [State.top, helems, List.head?_cons]
    simp only [PrioHeap.validate, List.all_eq_true, Bool.not_eq_true']
    intro elem helem
    exact hs.top_le h htop elem (helems ▸ List.mem_cons_of_mem _ helem)

theorem State.Wf.of_apply (hs : s.Wf gt) (heq : s.apply gt op = some s') : s'.Wf gt := by
  let _ := notGreater h
  have hgt := respects_notGreater h
  have hbelow : IsHeapBelow (id : T → T) s.elems := fun i parent child hi _ =>
    hs.order i parent child hi
  cases op with
  | insert elem =>
    obtain rfl := Option.some.inj heq
    refine ⟨IsHeap.order (insert_isHeap hgt (hs.isHeap h) elem), ?_⟩
    rw [Multiset.coe_eq_coe.mpr (insert_perm s.elems elem), ← Multiset.cons_coe, Multiset.cons_add,
      hs.balance]
  | removeTop =>
    obtain ⟨top, htop, rfl⟩ := Option.map_eq_some_iff.mp heq
    refine ⟨IsHeap.order (removeTop_isHeap hgt hbelow), ?_⟩
    rw [Multiset.coe_eq_coe.mpr (removeTop_perm s.elems), Multiset.add_cons, ← Multiset.cons_add,
      Multiset.cons_coe, ← State.top_eq_some htop, hs.balance]
  | replaceTop elem =>
    obtain ⟨top, htop, rfl⟩ := Option.map_eq_some_iff.mp heq
    have hne : s.elems ≠ [] := State.top_eq_some htop ▸ List.cons_ne_nil _ _
    refine ⟨IsHeap.order (replaceTop_isHeap hgt hbelow hne elem), ?_⟩
    rw [Multiset.coe_eq_coe.mpr (replaceTop_perm hne elem), ← Multiset.cons_coe, Multiset.add_cons,
      Multiset.cons_add, Multiset.cons_swap, ← Multiset.cons_add, ← Multiset.cons_add,
      Multiset.cons_coe, ← State.top_eq_some htop, Multiset.cons_add, hs.balance]
  | clear =>
    obtain rfl := Option.some.inj heq
    refine ⟨fun _ _ _ _ hparent => (by cases hparent), ?_⟩
    rw [Multiset.coe_nil, zero_add, hs.balance]

theorem State.Wf.of_step (hs : s.Wf gt) (heq : step gt s op = some s') : s'.Wf gt :=
  hs.of_apply h (Option.filter_eq_some_iff.mp heq).1

theorem run_wf {ops : List (Op T)} (heq : run gt ops = some s) : s.Wf gt := by
  have hrun : ∀ s₀ : State T, s₀.Wf gt → ops.foldlM (step gt) s₀ = some s → s.Wf gt := by
    clear heq
    induction ops with
    | nil =>
      rintro s₀ hs₀ ⟨⟩
      exact hs₀
    | cons op ops ih =>
      intro s₀ hs₀ heq
      obtain ⟨s₁, hs₁, heq⟩ := Option.bind_eq_some_iff.mp heq
      exact ih s₁ (hs₀.of_step h hs₁) heq
  exact hrun {} ⟨fun _ _ _ _ hparent => (by cases hparent), rfl⟩ heq

/-- The checks of a debug build never fail. -/
theorem State.Wf.step_eq_none_iff (hs : s.Wf gt) (op : Op T) :
    step gt s op = none ↔ op.needsTop = true ∧ s.elems = [] := by
  rw [← s.apply_eq_none_iff gt]
  cases happly : s.apply gt op with
  | none => simp [PrioHeap.step, happly]
  | some s' => simp [PrioHeap.step, happly, Option.filter_some, (hs.of_apply h happly).validate h]

end

/-- After any sequence of operations, the heap has what was inserted and not removed, no element is
greater than its parent or than the top one, replacing the top element leaves what removing it and
inserting leave, and only an empty heap refuses an operation. -/
theorem run_heap (gt : T → T → Bool) (h : IsStrictWeakOrder T fun a b => gt a b = true)
    (ops : List (Op T)) (s : State T) (hrun : run gt ops = some s) :
    (s.elems : Multiset T) + s.removed = s.inserted ∧
      (∀ i parent child, i ≠ 0 → s.elems[parentPos i]? = some parent →
        s.elems[i]? = some child → gt child parent = false) ∧
      (∀ top, s.top = some top → ∀ elem ∈ s.elems, gt elem top = false) ∧
      (∀ elem, s.elems ≠ [] →
        (replaceTop gt s.elems elem : Multiset T) = insert gt (removeTop gt s.elems) elem) ∧
      ∀ op, step gt s op = none ↔ op.needsTop = true ∧ s.elems = [] := by
  have hs := run_wf h hrun
  refine ⟨hs.balance, hs.order, fun top htop => hs.top_le h htop, fun elem hne => ?_,
    hs.step_eq_none_iff h⟩
  exact Multiset.coe_eq_coe.mpr (replaceTop_perm_insert hne elem)

def natGt (a b : ℕ) : Bool := decide (b < a)

theorem natGt_isStrictWeakOrder : IsStrictWeakOrder ℕ fun a b => natGt a b = true where
  irrefl a := by simp [natGt]
  trans a b c hab hbc := by
    simp only [natGt, decide_eq_true_eq] at hab hbc ⊢
    omega
  incomp_trans a b c hab hbc := by
    simp only [natGt, decide_eq_true_eq] at hab hbc ⊢
    omega

theorem run_heap_nat :
    ∃ s : State ℕ, run natGt [.insert 3, .insert 5, .replaceTop 1] = some s ∧
      s.elems = [3, 1] ∧ (s.elems : Multiset ℕ) + s.removed = s.inserted := by
  have hrun : (run natGt [.insert 3, .insert 5, .replaceTop 1]).map State.elems = some [3, 1] := by
    decide +kernel
  obtain ⟨s, hs, helems⟩ := Option.map_eq_some_iff.mp hrun
  exact ⟨s, hs, helems, (run_heap natGt natGt_isStrictWeakOrder _ s hs).1⟩

/-- What removing the top element again and again gives -/
def drain (gt : T → T → Bool) : ℕ → List T → List T
  | 0, _ => []
  | _ + 1, [] => []
  | n + 1, top :: others => top :: drain gt n (removeTop gt (top :: others))

theorem State.Wf.drain (hs : s.Wf gt) (h : IsStrictWeakOrder T fun a b => gt a b = true) :
    (drain gt s.elems.length s.elems).Perm s.elems ∧
      (drain gt s.elems.length s.elems).Pairwise fun a b => gt b a = false := by
  induction hn : s.elems.length generalizing s with
  | zero =>
    rw [List.length_eq_zero_iff.mp hn]
    exact ⟨.nil, .nil⟩
  | succ n ih =>
    cases helems : s.elems with
    | nil => simp [helems] at hn
    | cons top others =>
      have htop : s.top = some top := by rw [State.top, helems, List.head?_cons]
      have happly : s.apply gt .removeTop =
          some ⟨removeTop gt (top :: others), s.inserted, top ::ₘ s.removed⟩ := by
        rw [State.apply, htop, helems, Option.map_some]
      have hperm : (removeTop gt (top :: others)).Perm others := removeTop_perm _
      have hlen : (removeTop gt (top :: others)).length = n := by
        rw [hperm.length_eq]
        simpa [helems] using hn
      obtain ⟨hrest, hsorted⟩ := ih (hs.of_apply h happly) hlen
      have hall := hrest.trans hperm
      refine ⟨hall.cons top, List.pairwise_cons.mpr ⟨fun elem helem => ?_, hsorted⟩⟩
      exact hs.top_le h htop elem (helems ▸ List.mem_cons_of_mem _ (hall.mem_iff.mp helem))

/-- After any sequence of operations, removing the top element until the heap is empty gives its
elements, the greatest ones first. -/
theorem run_drain_sorted (gt : T → T → Bool) (h : IsStrictWeakOrder T fun a b => gt a b = true)
    (ops : List (Op T)) (s : State T) (hrun : run gt ops = some s) :
    (drain gt s.elems.length s.elems).Perm s.elems ∧
      (drain gt s.elems.length s.elems).Pairwise fun a b => gt b a = false :=
  (run_wf h hrun).drain h

theorem run_drain_sorted_nat : ∃ s : State ℕ, run natGt [.insert 3, .insert 5, .insert 4] = some s ∧
    (drain natGt s.elems.length s.elems).Pairwise fun a b => natGt b a = false := by
  have hrun : (run natGt [.insert 3, .insert 5, .insert 4]).isSome = true := by decide +kernel
  obtain ⟨s, hs⟩ := Option.isSome_iff_exists.mp hrun
  exact ⟨s, hs, (run_drain_sorted natGt natGt_isStrictWeakOrder _ s hs).2⟩

end Babeltrace.PrioHeap
