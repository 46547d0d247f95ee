import Mathlib
import Babeltrace.ParentForest

/-!
# Reference counts of objects with parents

Shared objects (`object.h`): an object of which the reference count is not zero has a reference to
its parent. When the count of the root falls to zero, its release function releases the whole tree.
Their user creates them, links them, and puts the references which it has taken: the library then
never accesses a destroyed object, unless an object has a listener which destroys it when only its
parent owns it (`connection.c`).
-/
namespace Babeltrace.ObjectRefs

open ParentForest

/-! ## Model -/

/-- `held` tells how many references to an object are held from outside the trees. The listener of an
object makes its parent destroy it. -/
structure State where
  created : ℕ := 0
  withParent : ℕ → Bool := fun _ => false
  parentIsOwnerListener : ℕ → Bool := fun _ => false
  parent : ℕ → Option ℕ := fun _ => none
  children : ℕ → List ℕ := fun _ => []
  refCount : ℕ → ℕ := fun _ => 0
  destroyed : List ℕ := []
  held : ℕ → ℕ := fun _ => 0

/-- The memory of the object is still there. -/
def State.Alive (s : State) (obj : ℕ) : Prop := obj < s.created ∧ obj ∉ s.destroyed

instance (s : State) (obj : ℕ) : Decidable (s.Alive obj) :=
  inferInstanceAs (Decidable (_ ∧ _))

/-- Counts have 64 bits, and one which wraps fails an assertion. -/
def State.incRefCount (s : State) (obj : ℕ) : Option State :=
  let refCount := (s.refCount obj + 1) % 2 ^ 64
  if refCount = 0 then none
  else some { s with refCount := Function.update s.refCount obj refCount }

def State.decRefCount (s : State) (obj : ℕ) : State :=
  { s with refCount := Function.update s.refCount obj (s.refCount obj - 1) }

def State.destroy (s : State) (obj : ℕ) : State := { s with destroyed := s.destroyed ++ [obj] }

/-- There's no result if it accesses an object which is destroyed. -/
def getRef : ℕ → ℕ → State → Option State
  | 0, _, _ => none
  | fuel + 1, obj, s =>
    if s.Alive obj then
      match s.parent obj with
      | some parent =>
        if s.refCount obj = 0 then (getRef fuel parent s).bind (·.incRefCount obj)
        else s.incRefCount obj
      | none => s.incRefCount obj
    else none

def trySpecRelease (release : State → Option State) (obj : ℕ) (s : State) : Option State :=
  if s.Alive obj then if s.refCount obj = 0 then release s else some s else none

/-- With `bt_object_try_spec_release()` or with its specific release function -/
def releaseChild (tries : Bool) (release : State → Option State) (child : ℕ) (s : State) :
    Option State :=
  if tries then trySpecRelease release child s else release s

section

-- whether a child is released with `bt_object_try_spec_release()`
variable (tries : ℕ → Bool)

/-- It releases the children, and then destroys the object. -/
def specRelease : ℕ → ℕ → State → Option State
  | 0, _, _ => none
  | fuel + 1, obj, s =>
    if s.Alive obj then
      ((s.children obj).foldlM (fun s child =>
        releaseChild (tries child) (specRelease fuel child) child s) s).map (·.destroy obj)
    else none

/-- What a listener does: the parent removes the object from its children, and releases it. -/
def parentIsOwner (release : State → Option State) (obj parent : ℕ) (s : State) : Option State :=
  if s.parentIsOwnerListener obj then
    release { s with children := Function.update s.children parent ((s.children parent).erase obj) }
  else some s

/-- With `bt_object_with_parent_release_func()` for the objects which have it -/
def putRef : ℕ → ℕ → State → Option State
  | 0, _, _ => none
  | fuel + 1, obj, s =>
    if s.Alive obj ∧ 0 < s.refCount obj then
      if (s.decRefCount obj).refCount obj = 0 then
        if s.withParent obj then
          match s.parent obj with
          | some parent => do
            let s ← parentIsOwner (specRelease tries s.created obj) obj parent (s.decRefCount obj)
            putRef fuel parent s
          | none => trySpecRelease (specRelease tries s.created obj) obj (s.decRefCount obj)
        else specRelease tries s.created obj (s.decRefCount obj)
      else some (s.decRefCount obj)
    else none

def State.link (s : State) (child parent : ℕ) : State :=
  { s with
    parent := Function.update s.parent child (some parent)
    children := Function.update s.children parent (s.children parent ++ [child]) }

/-- `bt_object_set_parent()` with a parent -/
def setParent (child parent : ℕ) (s : State) : Option State :=
  if s.Alive child ∧ s.parent child = none then
    getRef s.created parent (s.link child parent)
  else none

/-- The one who creates an object holds a reference. -/
def init (withParent hasListener : Bool) (s : State) : State :=
  { s with
    created := s.created + 1
    withParent := Function.update s.withParent s.created withParent
    parentIsOwnerListener := Function.update s.parentIsOwnerListener s.created hasListener
    refCount := Function.update s.refCount s.created 1
    held := Function.update s.held s.created 1 }

inductive Op
  | init (withParent hasListener : Bool)
  | setParent (child parent : ℕ)
  | getRef (obj : ℕ)
  | putRef (obj : ℕ)

/-- The recursive functions get as many levels as there are objects. -/
def step (s : State) : Op → Option State
  | .init withParent hasListener => some (init withParent hasListener s)
  | .setParent child parent => setParent child parent s
  | .getRef obj => (getRef s.created obj s).map fun s =>
    { s with held := Function.update s.held obj (s.held obj + 1) }
  | .putRef obj => (putRef tries s.created obj s).map fun s =>
    { s with held := Function.update s.held obj (s.held obj - 1) }

/-! ## User -/

def State.Referenced (s : State) (obj : ℕ) : Prop :=
  ∃ obj', SameTree s.parent obj obj' ∧ s.held obj' ≠ 0

/-- No object can have as many references as a count has values, even with one more child. -/
def State.HasRoom (s : State) : Prop := ∀ obj, s.held obj + s.created + 1 < 2 ^ 64

/-- No object has a listener. -/
def State.Valid (s : State) : Op → Prop
  | .init _ hasListener => s.HasRoom ∧ hasListener = false
  | .setParent child parent => s.HasRoom ∧ s.Referenced child ∧ s.Referenced parent ∧
    s.parent child = none ∧ s.withParent child = true ∧ ¬Below s.parent parent child
  | .getRef obj => s.HasRoom ∧ s.Referenced obj
  | .putRef obj => s.held obj ≠ 0

inductive Reachable : State → Prop
  | init : Reachable {}
  | step {s s' : State} {op : Op} (hs : Reachable s) (hop : s.Valid op)
      (heq : step tries s op = some s') : Reachable s'

end

def liveChildren (n : ℕ) (parent : ℕ → Option ℕ) (count : ℕ → ℕ) (obj : ℕ) : Finset ℕ :=
  {child ∈ Finset.range n | parent child = some obj ∧ count child ≠ 0}

def Balanced (n : ℕ) (parent : ℕ → Option ℕ) (count : ℕ → ℕ) (h : ℕ → ℤ) : Prop :=
  ∀ obj, (count obj : ℤ) = h obj + (liveChildren n parent count obj).card

structure State.Shape (s : State) : Prop where
  forest : Forest (Finset.range s.created) s.parent
  children_nodup : ∀ obj, (s.children obj).Nodup
  mem_children : ∀ {obj child}, child ∈ s.children obj ↔ s.parent child = some obj
  withParent : ∀ {obj parent}, s.parent obj = some parent → s.withParent obj = true
  noListener : ∀ obj, s.parentIsOwnerListener obj = false

theorem State.Shape.update {s : State} (hs : s.Shape) (refCount : ℕ → ℕ) (destroyed : List ℕ)
    (held : ℕ → ℕ) : State.Shape { s with refCount, destroyed, held } :=
  ⟨hs.forest, hs.children_nodup, hs.mem_children, hs.withParent, hs.noListener⟩

/-! ## Balance -/

variable {k x o fuel d r c p : ℕ} {h : ℕ → ℤ}

section

variable {n : ℕ} {parent : ℕ → Option ℕ} {count : ℕ → ℕ} {h : ℕ → ℤ} {o p : ℕ}

theorem liveChildren_update_of_ne {q : ℕ} (hq : parent o ≠ some q) :
    liveChildren n parent (Function.update count o k) q = liveChildren n parent count q := by
  refine Finset.filter_congr fun c _ => and_congr_right fun hc => ?_
  rw [Function.update_of_ne]
  rintro rfl
  exact hq hc

theorem liveChildren_update_of_ne_zero {q : ℕ} (ho : count o ≠ 0) (hk : k ≠ 0) :
    liveChildren n parent (Function.update count o k) q = liveChildren n parent count q := by
  refine Finset.filter_congr fun c _ => and_congr_right fun _ => ?_
  by_cases hc : c = o
  · subst hc
    simp [ho, hk]
  · rw [Function.update_of_ne hc]

theorem card_liveChildren_update (hlt : o < n) (hp : parent o = some p) (ho : count o = 0)
    (hk : k ≠ 0) :
    (liveChildren n parent (Function.update count o k) p).card =
      (liveChildren n parent count p).card + 1 := by
  have hmem : o ∉ liveChildren n parent count p := by simp [liveChildren, ho]
  rw [← Finset.card_insert_of_notMem hmem]
  congr 1
  ext c
  by_cases hc : c = o
  · subst hc
    simp [liveChildren, hlt, hp, hk]
  · simp [liveChildren, hc]

/-- What the parent of `o` is owed when the count of `o` is zero -/
def owed (parent : ℕ → Option ℕ) (count : ℕ → ℕ) (o : ℕ) : ℕ → ℤ :=
  if count o = 0 then (parent o).elim 0 (Pi.single · 1) else 0

theorem owed_of_ne_zero (ho : count o ≠ 0) : owed parent count o = 0 := if_neg ho

theorem owed_of_none (hp : parent o = none) : owed parent count o = 0 := by
  simp [owed, hp]

theorem owed_of_some (hp : parent o = some p) (ho : count o = 0) :
    owed parent count o = Pi.single p 1 := by
  simp [owed, hp, ho]

theorem balanced_inc_iff (hlt : o < n) (hself : parent o ≠ some o) :
    Balanced n parent (Function.update count o (count o + 1)) (h + Pi.single o 1) ↔
      Balanced n parent count (h + owed parent count o) := by
  have hcard : ∀ q, ((liveChildren n parent (Function.update count o (count o + 1)) q).card : ℤ) =
      (liveChildren n parent count q).card + owed parent count o q := by
    intro q
    by_cases ho : count o = 0
    · cases hp : parent o with
      | none => rw [liveChildren_update_of_ne (by simp [hp]), owed_of_none hp, Pi.zero_apply, add_zero]
      | some p =>
        rw [owed_of_some hp ho]
        by_cases hq : q = p
        · subst hq
          rw [card_liveChildren_update hlt hp ho (Nat.succ_ne_zero _), Pi.single_eq_same]
          push_cast
          rfl
        · rw [liveChildren_update_of_ne (by simp [hp, Ne.symm hq]), Pi.single_eq_of_ne hq, add_zero]
    · rw [liveChildren_update_of_ne_zero ho (Nat.succ_ne_zero _), owed_of_ne_zero ho, Pi.zero_apply,
        add_zero]
  refine forall_congr' fun q => ?_
  rw [hcard, Pi.add_apply, Pi.add_apply]
  by_cases hq : q = o
  · subst hq
    rw [Function.update_self, Pi.single_eq_same]
    push_cast
    omega
  · rw [Function.update_of_ne hq, Pi.single_eq_of_ne hq]
    omega

theorem Balanced.ne_zero_of_child (hb : Balanced n parent count h) (hh : ∀ q, 0 ≤ h q) (hlt : o < n)
    (hp : parent o = some p) (ho : count o ≠ 0) : count p ≠ 0 := by
  have hmem : o ∈ liveChildren n parent count p := by simp [liveChildren, hlt, hp, ho]
  have hpos := Finset.card_pos.mpr ⟨o, hmem⟩
  have := hb p
  have := hh p
  omega

end

/-! ## Counts and roots -/

section

variable {n : ℕ} {parent : ℕ → Option ℕ} {count : ℕ → ℕ} {h : ℕ → ℤ}

theorem Balanced.ne_zero_of_below (hf : Forest (Finset.range n) parent)
    (hb : Balanced n parent count h) (hh : ∀ q, 0 ≤ h q) (hx : Below parent x o)
    (hcount : count x ≠ 0) : count o ≠ 0 := by
  induction hx with
  | refl => exact hcount
  | tail _ hp ih => exact hb.ne_zero_of_child hh (Finset.mem_range.mp (hf.mem hp).1) hp ih

theorem Balanced.ne_zero_iff (hf : Forest (Finset.range n) parent) (hb : Balanced n parent count h)
    (hh : ∀ q, 0 ≤ h q) (ho : o < n) :
    count o ≠ 0 ↔ ∃ x, Below parent x o ∧ h x ≠ 0 := by
  constructor
  · refine hf.induction_up (P := fun o => count o ≠ 0 → ∃ x, Below parent x o ∧ h x ≠ 0) ?_ o
      (Finset.mem_range.mpr ho)
    intro o _ ih hcount
    by_cases hheld : h o = 0
    · have hcard : (liveChildren n parent count o).card ≠ 0 := by
        have := hb o
        omega
      obtain ⟨c, hc⟩ := Finset.card_ne_zero.mp hcard
      obtain ⟨-, hp, hcount⟩ := Finset.mem_filter.mp hc
      obtain ⟨x, hx, hheld⟩ := ih c hp hcount
      exact ⟨x, below_of_parent hp hx, hheld⟩
    · exact ⟨o, .refl o, hheld⟩
  · rintro ⟨x, hx, hheld⟩
    refine hb.ne_zero_of_below hf hh hx ?_
    have := hb x
    have := hh x
    omega

end

/-! ## References -/

theorem State.incRefCount_eq {s : State} (h : s.refCount o + 1 < 2 ^ 64) : s.incRefCount o =
    some { s with refCount := Function.update s.refCount o (s.refCount o + 1) } := by
  rw [State.incRefCount, Nat.mod_eq_of_lt h]
  rfl

section

variable {s : State} (hf : Forest (Finset.range s.created) s.parent)

include hf

theorem getRef_eq (hd : Depth s.parent o d) (hfuel : d < fuel)
    (halive : ∀ x, Below s.parent o x → s.Alive x) (hroom : ∀ x, s.refCount x + 1 < 2 ^ 64)
    (hb : Balanced s.created s.parent s.refCount h) :
    ∃ count, getRef fuel o s = some { s with refCount := count } ∧
      Balanced s.created s.parent count (h + Pi.single o 1) ∧
      (∀ x, s.refCount x ≤ count x) ∧ ∀ x, ¬Below s.parent o x → count x = s.refCount x := by
  have hinc : ∀ {count : ℕ → ℕ} {o x : ℕ}, count x ≤ Function.update count o (count o + 1) x := by
    intro count o x
    by_cases hx : x = o
    · subst hx
      rw [Function.update_self]
      exact Nat.le_succ _
    · rw [Function.update_of_ne hx]
  have hne : ∀ {o x : ℕ}, ¬Below s.parent o x → x ≠ o := by
    rintro o x hx rfl
    exact hx (.refl _)
  induction fuel generalizing o d with
  | zero => omega
  | succ fuel ih =>
    have hself := halive o (.refl o)
    have hloop : s.parent o ≠ some o := fun hp => hf.ne_parent hp rfl
    cases hd with
    | root hp =>
      refine ⟨_, by rw [getRef, if_pos hself, hp]; exact State.incRefCount_eq (hroom o), ?_,
        fun x => hinc, fun x hx => ?_⟩
      · rw [balanced_inc_iff hself.1 hloop, owed_of_none hp, add_zero]
        exact hb
      · exact Function.update_of_ne (hne hx) _ _
    | @child _ p d hp hd =>
      by_cases ho : s.refCount o = 0
      · obtain ⟨count, heq, hb', hle, hframe⟩ := ih hd (by omega) fun x hx =>
          halive x ((below_child_iff hp).mpr (.inr hx))
        have ho' : count o = 0 := by rw [hframe o (hf.not_below_child hp), ho]
        refine ⟨Function.update count o (count o + 1), ?_, ?_, fun x => (hle x).trans hinc,
          fun x hx => ?_⟩
        · rw [getRef, if_pos hself, hp]
          simp only [ho, if_true, heq, Option.bind_some]
          exact State.incRefCount_eq (show count o + 1 < 2 ^ 64 by rw [ho']; decide)
        · rw [balanced_inc_iff hself.1 hloop, owed_of_some hp ho']
          exact hb'
        · rw [Function.update_of_ne (hne hx)]
          exact hframe x fun hx' => hx ((below_child_iff hp).mpr (.inr hx'))
      · refine ⟨_, by
          rw [getRef, if_pos hself, hp]
          exact (if_neg ho).trans (State.incRefCount_eq (hroom o)), ?_, fun x => hinc, fun x hx => ?_⟩
        · rw [balanced_inc_iff hself.1 hloop, owed_of_ne_zero ho, add_zero]
          exact hb
        · exact Function.update_of_ne (hne hx) _ _

end

/-! ## Release -/

section

variable (tries : ℕ → Bool) {s : State}

theorem releaseChild_eq {try' : Bool} {release : State → Option State} {child : ℕ}
    (halive : s.Alive child) (hzero : s.refCount child = 0) :
    releaseChild try' release child s = release s := by
  simp [releaseChild, trySpecRelease, halive, hzero]

def Destroys (s : State) (o : ℕ) (release : State → Option State) : Prop :=
  ∀ gone : List ℕ, (∀ x, Below s.parent x o → x ∉ gone) →
    ∃ l, release { s with destroyed := gone } = some { s with destroyed := gone ++ l } ∧ l.Nodup ∧
      ∀ x, x ∈ l ↔ Below s.parent x o

theorem releaseChildren_eq (hf : Forest (Finset.range s.created) s.parent)
    {release : ℕ → State → Option State} (cs : List ℕ) (hnodup : cs.Nodup)
    (hparent : ∀ c ∈ cs, s.parent c = some o) (hrelease : ∀ c ∈ cs, Destroys s c (release c))
    (hlt : ∀ c ∈ cs, c < s.created) (hzero : ∀ c ∈ cs, s.refCount c = 0) (gone : List ℕ)
    (hgone : ∀ x, (∃ c ∈ cs, Below s.parent x c) → x ∉ gone) :
    ∃ l, cs.foldlM (fun s child => releaseChild (tries child) (release child) child s)
        { s with destroyed := gone } = some { s with destroyed := gone ++ l } ∧
      l.Nodup ∧ ∀ x, x ∈ l ↔ ∃ c ∈ cs, Below s.parent x c := by
  induction cs generalizing gone with
  | nil => exact ⟨[], by simp, List.nodup_nil, by simp⟩
  | cons c cs ih =>
    rw [List.forall_mem_cons] at hparent hrelease hlt hzero
    obtain ⟨hc, hnodup⟩ := List.nodup_cons.mp hnodup
    have halive : State.Alive { s with destroyed := gone } c :=
      ⟨hlt.1, hgone c ⟨c, List.mem_cons_self, .refl c⟩⟩
    obtain ⟨l, heq, hl, hmem⟩ := hrelease.1 gone fun x hx =>
      hgone x ⟨c, List.mem_cons_self, hx⟩
    have hgone' : ∀ x, (∃ c ∈ cs, Below s.parent x c) → x ∉ gone ++ l := by
      rintro x ⟨c', hc', hx⟩ hxl
      rcases List.mem_append.mp hxl with hxl | hxl
      · exact hgone x ⟨c', List.mem_cons_of_mem _ hc', hx⟩ hxl
      · -- two children have nothing in common
        obtain rfl := hf.siblings_eq hparent.1 (hparent.2 c' hc') ((hmem x).mp hxl) hx
        exact hc hc'
    obtain ⟨l', heq', hl', hmem'⟩ := ih hnodup hparent.2 hrelease.2 hlt.2 hzero.2 (gone ++ l) hgone'
    refine ⟨l ++ l', ?_, hl.append hl' ?_, fun x => ?_⟩
    · rw [List.foldlM_cons, releaseChild_eq halive hzero.1, heq, ← List.append_assoc]
      exact heq'
    · intro x hx hx'
      exact hgone' x ((hmem' x).mp hx') (List.mem_append_right _ hx)
    · rw [List.mem_append, hmem, hmem']
      simp

theorem specRelease_destroys (hs : s.Shape) (hd : Depth s.parent o d) (ho : o < s.created)
    (hfuel : s.created ≤ fuel + d) (hzero : ∀ x, Below s.parent x o → s.refCount x = 0) :
    Destroys s o (specRelease tries fuel o) := by
  have hf := hs.forest
  induction fuel generalizing o d with
  | zero =>
    have := hf.depth_lt (Finset.mem_range.mpr ho) hd
    rw [Finset.card_range] at this
    omega
  | succ fuel ih =>
    intro gone hgone
    have hparent : ∀ c ∈ s.children o, s.parent c = some o := fun c hc => hs.mem_children.mp hc
    have hlt : ∀ c ∈ s.children o, c < s.created := fun c hc =>
      Finset.mem_range.mp (hf.mem (hparent c hc)).1
    have hbelow : ∀ c ∈ s.children o, ∀ x, Below s.parent x c → Below s.parent x o :=
      fun c hc x hx => below_of_parent (hparent c hc) hx
    have hrelease : ∀ c ∈ s.children o, Destroys s c (specRelease tries fuel c) := fun c hc =>
      ih (.child (hparent c hc) hd) (hlt c hc) (by omega) fun x hx => hzero x (hbelow c hc x hx)
    have hgone' : ∀ x, (∃ c ∈ s.children o, Below s.parent x c) → x ∉ gone := by
      rintro x ⟨c, hc, hx⟩
      exact hgone x (hbelow c hc x hx)
    obtain ⟨l, heq, hl, hmem⟩ := releaseChildren_eq tries hf (s.children o)
      (hs.children_nodup o) hparent hrelease hlt
      (fun c hc => hzero c (hbelow c hc c (.refl c))) gone hgone'
    refine ⟨l ++ [o], ?_, hl.append (List.nodup_singleton o) ?_, fun x => ?_⟩
    · have halive : State.Alive { s with destroyed := gone } o := ⟨ho, hgone o (.refl o)⟩
      rw [specRelease, if_pos halive, heq, Option.map_some, State.destroy]
      simp
    · rintro x hx ho'
      obtain rfl := List.mem_singleton.mp ho'
      obtain ⟨c, hc, hx⟩ := (hmem x).mp hx
      exact hf.not_below_child (hparent c hc) hx
    · rw [List.mem_append, hmem, List.mem_singleton, below_iff, or_comm]
      simp only [hs.mem_children]

theorem decRefCount_refCount_self (o : ℕ) : (s.decRefCount o).refCount o = s.refCount o - 1 :=
  Function.update_self _ _ _

theorem balanced_decRefCount (hs : s.Shape) (ho : o < s.created) (hpos : 0 < s.refCount o)
    (hb : Balanced s.created s.parent s.refCount (h + Pi.single o 1)) :
    Balanced s.created s.parent (s.decRefCount o).refCount
      (h + owed s.parent (s.decRefCount o).refCount o) := by
  rw [← balanced_inc_iff ho fun hp => hs.forest.ne_parent hp rfl, decRefCount_refCount_self,
    Nat.sub_add_cancel hpos, State.decRefCount, Function.update_idem, Function.update_eq_self]
  exact hb

theorem putRef_eq (hs : s.Shape) (hd : Depth s.parent o d) (hfuel : d < fuel)
    (hr : s.parent r = none) (hor : Below s.parent o r)
    (halive : ∀ x, Below s.parent x r → s.Alive x)
    (hb : Balanced s.created s.parent s.refCount (h + Pi.single o 1)) (hh : ∀ q, 0 ≤ h q) :
    ∃ count l, putRef tries fuel o s =
        some { s with refCount := count, destroyed := s.destroyed ++ l } ∧
      Balanced s.created s.parent count h ∧
      (∀ x, ¬Below s.parent o x → count x = s.refCount x) ∧ l.Nodup ∧
      ∀ x, x ∈ l ↔ count r = 0 ∧ Below s.parent x r := by
  have hf := hs.forest
  induction fuel generalizing o d s with
  | zero => omega
  | succ fuel ih =>
    have hself := halive o hor
    have hpos : 0 < s.refCount o := by
      have ho := hb o
      have := hh o
      rw [Pi.add_apply, Pi.single_eq_same] at ho
      omega
    have hdec := balanced_decRefCount hs hself.1 hpos hb
    have hframe : ∀ x, ¬Below s.parent o x → (s.decRefCount o).refCount x = s.refCount x := by
      intro x hx
      refine Function.update_of_ne ?_ _ _
      rintro rfl
      exact hx (.refl _)
    by_cases ho : (s.decRefCount o).refCount o = 0
    · cases hd with
      | root hp =>
        obtain rfl := (below_root_iff hp).mp hor
        rw [owed_of_none hp, add_zero] at hdec
        have hzero : ∀ x, Below s.parent x r → (s.decRefCount r).refCount x = 0 := by
          intro x hx
          by_contra hne
          exact hdec.ne_zero_of_below hf hh hx hne ho
        obtain ⟨l, heq, hl, hmem⟩ := specRelease_destroys tries (s := s.decRefCount r)
          (hs.update _ _ _) (.root hp) hself.1 (Nat.le_refl _) hzero s.destroyed fun x hx => (halive x hx).2
        refine ⟨(s.decRefCount r).refCount, l, ?_, hdec, hframe, hl, fun x => ?_⟩
        · rw [putRef, if_pos ⟨hself, hpos⟩, if_pos ho, hp]
          have hrelease : specRelease tries s.created r (s.decRefCount r) = _ := heq
          have halive' : (s.decRefCount r).Alive r := hself
          simp only [trySpecRelease, if_pos halive', if_pos ho, hrelease, ite_self]
          rfl
        · rw [hmem]
          exact ⟨fun hx => ⟨ho, hx⟩, fun hx => hx.2⟩
      | @child _ p d hp hd =>
        rw [owed_of_some hp ho] at hdec
        have hpr : Below s.parent p r := by
          rcases (below_child_iff hp).mp hor with rfl | hpr
          · rw [hr] at hp
            cases hp
          · exact hpr
        obtain ⟨count, l, heq, hb', hframe', hl, hmem⟩ := ih (s := s.decRefCount o)
          (hs.update _ _ _) hd (by omega) hr hpr halive hdec hf
        refine ⟨count, l, ?_, hb', fun x hx => ?_, hl, hmem⟩
        · have hlistener : (s.decRefCount o).parentIsOwnerListener o = false := hs.noListener o
          rw [putRef, if_pos ⟨hself, hpos⟩, if_pos ho, if_pos (hs.withParent hp), hp]
          simp only [parentIsOwner, hlistener, Bool.false_eq_true, if_false, Option.bind_eq_bind,
            Option.bind_some]
          exact heq
        · rw [← hframe x hx]
          exact hframe' x fun hx' => hx ((below_child_iff hp).mpr (.inr hx'))
    · rw [owed_of_ne_zero ho, add_zero] at hdec
      refine ⟨(s.decRefCount o).refCount, [], ?_, hdec, hframe, List.nodup_nil, fun x => ?_⟩
      · rw [putRef, if_pos ⟨hself, hpos⟩, if_neg ho, List.append_nil]
        rfl
      · simp [hdec.ne_zero_of_below hf hh hor ho]

end

/-! ## Calls -/

structure State.Inv (s : State) : Prop extends s.Shape where
  held_lt : ∀ obj, s.held obj ≠ 0 → obj < s.created
  balanced : Balanced s.created s.parent s.refCount (fun obj => s.held obj)
  destroyed_nodup : s.destroyed.Nodup
  mem_destroyed : ∀ obj, obj ∈ s.destroyed ↔ obj < s.created ∧
    ∃ root, s.parent root = none ∧ Below s.parent obj root ∧ s.refCount root = 0

section

variable {s : State}

theorem State.Inv.lt_of_sameTree (hs : s.Inv) {o' : ℕ} (h : SameTree s.parent o o')
    (ho' : o' < s.created) : o < s.created := by
  obtain ⟨r, -, hor, hor'⟩ := h
  have hr := hs.forest.mem_of_below (Finset.mem_range.mpr ho') hor'
  exact Finset.mem_range.mp (hs.forest.mem_of_below_left hr hor)

theorem State.Inv.referenced_iff (hs : s.Inv) (o : ℕ) :
    s.Referenced o ↔ o < s.created ∧
      ∃ r, s.parent r = none ∧ Below s.parent o r ∧ s.refCount r ≠ 0 := by
  have hh : ∀ q, (0 : ℤ) ≤ s.held q := fun q => Int.natCast_nonneg _
  constructor
  · rintro ⟨o', hsame, hheld⟩
    have hlt := hs.held_lt o' hheld
    refine ⟨hs.lt_of_sameTree hsame hlt, ?_⟩
    obtain ⟨r, hr, hor, hor'⟩ := hsame
    have hrlt := Finset.mem_range.mp (hs.forest.mem_of_below (Finset.mem_range.mpr hlt) hor')
    refine ⟨r, hr, hor, (hs.balanced.ne_zero_iff hs.forest hh hrlt).mpr ⟨o', hor', ?_⟩⟩
    exact_mod_cast hheld
  · rintro ⟨ho, r, hr, hor, hcount⟩
    have hrlt := Finset.mem_range.mp (hs.forest.mem_of_below (Finset.mem_range.mpr ho) hor)
    obtain ⟨o', hor', hheld⟩ := (hs.balanced.ne_zero_iff hs.forest hh hrlt).mp hcount
    exact ⟨o', ⟨r, hr, hor, hor'⟩, by exact_mod_cast hheld⟩

theorem State.Inv.mem_destroyed_iff (hs : s.Inv) (o : ℕ) :
    o ∈ s.destroyed ↔ o < s.created ∧ ¬s.Referenced o := by
  rw [hs.mem_destroyed, hs.referenced_iff]
  refine and_congr_right fun ho => ?_
  obtain ⟨r, hr, hor⟩ := hs.forest.exists_root o
  constructor
  · rintro ⟨r, hr, hor, hzero⟩ ⟨-, r', hr', hor', hne⟩
    obtain rfl := root_unique hor hor' hr hr'
    exact hne hzero
  · intro h
    refine ⟨r, hr, hor, ?_⟩
    by_contra hne
    exact h ⟨ho, r, hr, hor, hne⟩

theorem State.Inv.alive_of_root (hs : s.Inv) (hr : s.parent r = none) (hrlt : r < s.created)
    (hcount : s.refCount r ≠ 0) (hx : Below s.parent x r) : s.Alive x := by
  have hxlt := Finset.mem_range.mp
    (hs.forest.mem_of_below_left (Finset.mem_range.mpr hrlt) hx)
  refine ⟨hxlt, fun hmem => ?_⟩
  obtain ⟨-, r', hr', hx', hzero⟩ := (hs.mem_destroyed x).mp hmem
  obtain rfl := root_unique hx hx' hr hr'
  exact hcount hzero

theorem State.Inv.depth_lt (hs : s.Inv) (ho : o < s.created) (hd : Depth s.parent o d) :
    d < s.created := by
  have := hs.forest.depth_lt (Finset.mem_range.mpr ho) hd
  rwa [Finset.card_range] at this

theorem held_update_add (o : ℕ) : (fun q => ((Function.update s.held o (s.held o + 1) q : ℕ) : ℤ)) =
    (fun q => (s.held q : ℤ)) + Pi.single o 1 := by
  funext q
  by_cases hq : q = o
  · subst hq
    simp
  · simp [hq]

theorem held_update_sub (ho : s.held o ≠ 0) :
    (fun q => (s.held q : ℤ)) =
      (fun q => ((Function.update s.held o (s.held o - 1) q : ℕ) : ℤ)) + Pi.single o 1 := by
  funext q
  by_cases hq : q = o
  · subst hq
    simp only [Function.update_self, Pi.add_apply, Pi.single_eq_same]
    omega
  · simp [hq]

theorem root_frame {r' : ℕ} (hr : s.parent r = none) (hor : Below s.parent o r)
    (hr' : s.parent r' = none) (hne : r' ≠ r) {count : ℕ → ℕ}
    (hframe : ∀ x, ¬Below s.parent o x → count x = s.refCount x) : count r' = s.refCount r' :=
  hframe r' fun hor' => hne (root_unique hor' hor hr' hr)

theorem State.Inv.held_update_lt (hs : s.Inv) (ho : o < s.created)
    (hx : Function.update s.held o k x ≠ 0) : x < s.created := by
  by_cases hxo : x = o
  · exact hxo ▸ ho
  · rw [Function.update_of_ne hxo] at hx
    exact hs.held_lt x hx

theorem State.HasRoom.refCount_lt (h : s.HasRoom)
    (hb : Balanced s.created s.parent s.refCount (fun obj => s.held obj)) (obj : ℕ) :
    s.refCount obj + 1 < 2 ^ 64 := by
  have hcard : (liveChildren s.created s.parent s.refCount obj).card ≤ s.created :=
    (Finset.card_filter_le _ _).trans (Finset.card_range _).le
  have hobj : (s.refCount obj : ℤ) = s.held obj + (liveChildren _ _ _ obj).card := hb obj
  have hroom := h obj
  omega

theorem State.Inv.getRef (hs : s.Inv) (hop : s.Valid (.getRef o)) (tries : ℕ → Bool) :
    ∃ s', step tries s (.getRef o) = some s' ∧ s'.Inv := by
  obtain ⟨hroom, ho⟩ := hop
  obtain ⟨hlt, r, hr, hor, hcount⟩ := (hs.referenced_iff o).mp ho
  obtain ⟨d, hd⟩ := hs.forest.depth o
  have hrlt := Finset.mem_range.mp (hs.forest.mem_of_below (Finset.mem_range.mpr hlt) hor)
  obtain ⟨count, heq, hb, hle, hframe⟩ := getRef_eq hs.forest hd (hs.depth_lt hlt hd)
    (fun x hx => hs.alive_of_root hr hrlt hcount (hs.forest.below_root hr hor hx))
    (hroom.refCount_lt hs.balanced) hs.balanced
  rw [← held_update_add] at hb
  have hroot : ∀ r', s.parent r' = none → (s.refCount r' = 0 ↔ count r' = 0) := by
    intro r' hr'
    by_cases hne : r' = r
    · subst hne
      have := hle r'
      omega
    · rw [root_frame hr hor hr' hne hframe]
  refine ⟨{ s with refCount := count, held := Function.update s.held o (s.held o + 1) },
    by rw [step, heq]; rfl, hs.update _ _ _, fun x => hs.held_update_lt hlt, hb,
    hs.destroyed_nodup, fun x => ?_⟩
  rw [hs.mem_destroyed]
  exact and_congr_right fun _ => exists_congr fun r' => and_congr_right fun hr' =>
    and_congr_right fun _ => hroot r' hr'

theorem State.Inv.putRef (hs : s.Inv) (ho : s.held o ≠ 0) (tries : ℕ → Bool) :
    ∃ s', step tries s (.putRef o) = some s' ∧ s'.Inv := by
  obtain ⟨r, hr, hor⟩ := hs.forest.exists_root o
  obtain ⟨hlt, r', hr', hor', hcount⟩ := (hs.referenced_iff o).mp ⟨o, ⟨r, hr, hor, hor⟩, ho⟩
  obtain rfl := root_unique hor hor' hr hr'
  obtain ⟨d, hd⟩ := hs.forest.depth o
  have hrlt := Finset.mem_range.mp (hs.forest.mem_of_below (Finset.mem_range.mpr hlt) hor)
  have halive : ∀ x, Below s.parent x r → s.Alive x := fun x => hs.alive_of_root hr hrlt hcount
  obtain ⟨count, l, heq, hb, hframe, hl, hmem⟩ := putRef_eq tries hs.toShape hd (hs.depth_lt hlt hd)
    hr hor halive (held_update_sub ho ▸ hs.balanced) fun q => Int.natCast_nonneg _
  refine ⟨{ s with refCount := count, destroyed := s.destroyed ++ l,
                   held := Function.update s.held o (s.held o - 1) },
    by rw [step, heq]; rfl, hs.update _ _ _, fun x => hs.held_update_lt hlt, hb, ?_, fun x => ?_⟩
  · refine hs.destroyed_nodup.append hl ?_
    intro x hx hxl
    exact (halive x ((hmem x).mp hxl).2).2 hx
  · rw [List.mem_append, hs.mem_destroyed, hmem]
    constructor
    · rintro (⟨hx, r', hr', hxr', hzero⟩ | ⟨hzero, hxr⟩)
      · have hne : r' ≠ r := by
          rintro rfl
          exact hcount hzero
        exact ⟨hx, r', hr', hxr', (root_frame hr hor hr' hne hframe).trans hzero⟩
      · exact ⟨(halive x hxr).1, r, hr, hxr, hzero⟩
    · rintro ⟨hx, r', hr', hxr', hzero⟩
      by_cases hne : r' = r
      · subst hne
        exact .inr ⟨hzero, hxr'⟩
      · exact .inl ⟨hx, r', hr', hxr', (root_frame hr hor hr' hne hframe).symm.trans hzero⟩

theorem State.Inv.init (hs : s.Inv) (withParent : Bool) : (init withParent false s).Inv := by
  have hfresh : ∀ o, s.parent o ≠ some s.created := by
    intro o ho
    exact absurd (Finset.mem_range.mp (hs.forest.mem ho).2) (Nat.lt_irrefl _)
  have hnone : s.parent s.created = none := by
    rw [Option.eq_none_iff_forall_ne_some]
    intro p hp
    exact absurd (Finset.mem_range.mp (hs.forest.mem hp).1) (Nat.lt_irrefl _)
  have hlive : ∀ q, liveChildren (s.created + 1) s.parent
      (Function.update s.refCount s.created 1) q = liveChildren s.created s.parent s.refCount q := by
    intro q
    rw [liveChildren_update_of_ne (by simp [hnone])]
    ext c
    simp only [liveChildren, Finset.mem_filter, Finset.mem_range]
    refine and_congr_left fun hc => ⟨fun _ => Finset.mem_range.mp (hs.forest.mem hc.1).1, fun h => ?_⟩
    omega
  refine ⟨⟨⟨fun ho => ?_, hs.forest.depth⟩, hs.children_nodup, hs.mem_children, fun ho => ?_,
    fun x => ?_⟩, fun x hx => ?_, fun q => ?_, hs.destroyed_nodup, fun x => ?_⟩
  · obtain ⟨ho, hp⟩ := hs.forest.mem ho
    exact ⟨Finset.range_mono (Nat.le_succ _) ho, Finset.range_mono (Nat.le_succ _) hp⟩
  · dsimp only [ObjectRefs.init] at ho ⊢
    rw [Function.update_of_ne]
    · exact hs.withParent ho
    · rintro rfl
      exact Option.some_ne_none _ (ho.symm.trans hnone)
  · dsimp only [ObjectRefs.init]
    by_cases hx : x = s.created
    · rw [hx, Function.update_self]
    · rw [Function.update_of_ne hx]
      exact hs.noListener x
  · by_cases hx' : x = s.created
    · exact hx' ▸ Nat.lt_succ_self _
    · dsimp only [ObjectRefs.init] at hx
      rw [Function.update_of_ne hx'] at hx
      exact Nat.lt_succ_of_lt (hs.held_lt x hx)
  · simp only [ObjectRefs.init, hlive]
    by_cases hq : q = s.created
    · subst hq
      have hempty : liveChildren s.created s.parent s.refCount s.created = ∅ := by
        simp [liveChildren, hfresh]
      simp [hempty]
    · rw [Function.update_of_ne hq, Function.update_of_ne hq]
      exact hs.balanced q
  · simp only [ObjectRefs.init, hs.mem_destroyed]
    constructor
    · rintro ⟨hx, r, hr, hxr, hzero⟩
      have hrlt := Finset.mem_range.mp (hs.forest.mem_of_below (Finset.mem_range.mpr hx) hxr)
      exact ⟨Nat.lt_succ_of_lt hx, r, hr, hxr, by rwa [Function.update_of_ne (by omega)]⟩
    · rintro ⟨hx, r, hr, hxr, hzero⟩
      have hrne : r ≠ s.created := by
        rintro rfl
        simp at hzero
      have hxne : x ≠ s.created := by
        rintro rfl
        exact hrne ((below_root_iff hnone).mp hxr)
      rw [Function.update_of_ne hrne] at hzero
      exact ⟨by omega, r, hr, hxr, hzero⟩

theorem liveChildren_link {n : ℕ} {parent : ℕ → Option ℕ} {count : ℕ → ℕ} (hc : parent c = none)
    (hlt : c < n) (hcount : count c ≠ 0) (q : ℕ) :
    ((liveChildren n (Function.update parent c (some p)) count q).card : ℤ) =
      (liveChildren n parent count q).card + (Pi.single p 1 : ℕ → ℤ) q := by
  by_cases hq : q = p
  · subst hq
    have hmem : c ∉ liveChildren n parent count q := by simp [liveChildren, hc]
    have hinsert : liveChildren n (Function.update parent c (some q)) count q =
        insert c (liveChildren n parent count q) := by
      ext x
      by_cases hx : x = c
      · subst hx
        simp [liveChildren, hlt, hcount]
      · simp [liveChildren, hx]
    rw [hinsert, Finset.card_insert_of_notMem hmem, Pi.single_eq_same]
    push_cast
    rfl
  · rw [Pi.single_eq_of_ne hq, add_zero]
    congr 2
    ext x
    by_cases hx : x = c
    · subst hx
      simp [liveChildren, hc, Ne.symm hq]
    · simp [liveChildren, hx]

theorem State.Shape.link (hs : s.Shape) (hc : s.parent c = none) (hw : s.withParent c = true)
    (hclt : c < s.created) (hplt : p < s.created) (hbelow : ¬Below s.parent p c) :
    (s.link c p).Shape := by
  refine ⟨hs.forest.link hc (Finset.mem_range.mpr hclt) (Finset.mem_range.mpr hplt) hbelow,
    fun o => ?_, fun {o x} => ?_, fun {o q} ho => ?_, hs.noListener⟩
  · dsimp only [State.link]
    by_cases ho : o = p
    · subst ho
      have hmem : c ∉ s.children o := by simp [hs.mem_children, hc]
      rw [Function.update_self, List.nodup_append_comm]
      exact List.nodup_cons.mpr ⟨hmem, hs.children_nodup o⟩
    · rw [Function.update_of_ne ho]
      exact hs.children_nodup o
  · dsimp only [State.link]
    by_cases ho : o = p <;> by_cases hx : x = c
    · subst ho hx
      simp
    · subst ho
      simp [hx, hs.mem_children]
    · subst hx
      simp [ho, Ne.symm ho, hs.mem_children, hc]
    · simp [ho, hx, hs.mem_children]
  · dsimp only [State.link] at ho
    by_cases hoc : o = c
    · exact hoc ▸ hw
    · rw [Function.update_of_ne hoc] at ho
      exact hs.withParent ho

theorem State.Inv.setParent (hs : s.Inv) (hop : s.Valid (.setParent c p)) (tries : ℕ → Bool) :
    ∃ s', step tries s (.setParent c p) = some s' ∧ s'.Inv := by
  obtain ⟨hroom, hcref, hpref, hc, hw, hbelow⟩ := hop
  obtain ⟨hclt, c', hc', hcc', hccount⟩ := (hs.referenced_iff c).mp hcref
  rw [(below_root_iff hc).mp hcc'] at hccount
  obtain ⟨hplt, r, hr, hpr, hrcount⟩ := (hs.referenced_iff p).mp hpref
  have hrlt := Finset.mem_range.mp (hs.forest.mem_of_below (Finset.mem_range.mpr hplt) hpr)
  have hrne : r ≠ c := by
    rintro rfl
    exact hbelow hpr
  have hshape := hs.toShape.link hc hw hclt hplt hbelow
  obtain ⟨d, hd⟩ := hs.forest.depth p
  -- the reference of the child to its parent is missing
  have hb : Balanced s.created (s.link c p).parent s.refCount
      ((fun q => (s.held q : ℤ)) - Pi.single p 1) := by
    intro q
    have hq : (s.refCount q : ℤ) = s.held q + (liveChildren _ _ _ q).card := hs.balanced q
    rw [State.link, liveChildren_link hc hclt hccount, Pi.sub_apply]
    omega
  obtain ⟨count, heq, hb, hle, hframe⟩ := getRef_eq hshape.forest
    (Forest.depth_link_of_not_below hd hbelow) (hs.depth_lt hplt hd)
    (fun x hx => hs.alive_of_root hr hrlt hrcount
      (hs.forest.below_root hr hpr (Forest.below_of_link hbelow hx)))
    (hroom.refCount_lt hs.balanced) hb
  rw [sub_add_cancel] at hb
  have hroot : ∀ {r'}, s.parent r' = none → r' ≠ c → (s.link c p).parent r' = none := by
    intro r' hr' hne
    exact (Function.update_of_ne hne _ _).trans hr'
  refine ⟨{ s.link c p with refCount := count }, ?_, hshape.update count s.destroyed s.held,
    hs.held_lt, hb, hs.destroyed_nodup, fun x => ?_⟩
  · rw [step, ObjectRefs.setParent, if_pos ⟨hs.alive_of_root hc hclt hccount (.refl c), hc⟩]
    exact heq
  · refine (hs.mem_destroyed x).trans (and_congr_right fun _ => ⟨?_, ?_⟩)
    · rintro ⟨r', hr', hxr', hzero⟩
      have hne : r' ≠ c := by
        rintro rfl
        exact hccount hzero
      refine ⟨r', hroot hr' hne, Forest.below_link hc hxr', (hframe r' fun hpr' => ?_).trans hzero⟩
      obtain rfl := root_unique hpr (Forest.below_of_link hbelow hpr') hr hr'
      exact hrcount hzero
    · rintro ⟨r', hr', hxr', hzero⟩
      obtain ⟨r₀, hr₀, hxr₀⟩ := hs.forest.exists_root x
      have hxr₀' : Below (s.link c p).parent x r₀ := Forest.below_link hc hxr₀
      by_cases hne : r₀ = c
      · -- its root was the child, and is now the one of the parent, which is referenced
        subst hne
        have hpr' : Below (s.link r₀ p).parent p r := Forest.below_link hc hpr
        have hlink : Below (s.link r₀ p).parent r₀ p := below_parent (Function.update_self _ _ _)
        obtain rfl := root_unique hxr' (hxr₀'.trans (hlink.trans hpr')) hr' (hroot hr hrne)
        exact absurd (Nat.le_zero.mp ((hle r').trans hzero.le)) hrcount
      · obtain rfl := root_unique hxr' hxr₀' hr' (hroot hr₀ hne)
        exact ⟨r', hr₀, hxr₀, Nat.le_zero.mp ((hle r').trans hzero.le)⟩

theorem State.Inv.step (hs : s.Inv) (tries : ℕ → Bool) {op : Op} (hop : s.Valid op) :
    ∃ s', step tries s op = some s' ∧ s'.Inv := by
  cases op with
  | init withParent hasListener =>
    obtain ⟨-, rfl⟩ := hop
    exact ⟨_, rfl, hs.init withParent⟩
  | setParent child parent => exact hs.setParent hop tries
  | getRef obj => exact hs.getRef hop tries
  | putRef obj => exact hs.putRef hop tries

theorem Reachable.inv {tries : ℕ → Bool} (hs : Reachable tries s) : s.Inv := by
  induction hs with
  | init =>
    refine ⟨⟨⟨fun h => (by cases h), fun o => ⟨0, .root rfl⟩⟩, fun _ => List.nodup_nil,
      fun {_ _} => ⟨fun h => (by cases h), fun h => (by cases h)⟩, fun h => (by cases h), fun _ => rfl⟩,
      fun _ h => absurd rfl h, fun _ => rfl, List.nodup_nil, fun _ => ?_⟩
    simp
  | step _ hop heq ih =>
    obtain ⟨s', heq', hs'⟩ := ih.step tries hop
    obtain rfl := Option.some.inj (heq.symm.trans heq')
    exact hs'

end

/-- Whatever the calls of the user: the next call is fine, the count of an object is the number of
references which are held on it and of its children which have a count, and the objects which are
destroyed, once each, are those of the trees of which no object is referenced. -/
theorem reachable_refCounts (tries : ℕ → Bool) (s : State) (hs : Reachable tries s) :
    (∀ op, s.Valid op → ∃ s', step tries s op = some s') ∧
      (∀ obj, s.refCount obj =
        s.held obj + (liveChildren s.created s.parent s.refCount obj).card) ∧
      s.destroyed.Nodup ∧ ∀ obj, obj ∈ s.destroyed ↔ obj < s.created ∧ ¬s.Referenced obj := by
  have hinv := hs.inv
  refine ⟨fun op hop => ?_, fun obj => ?_, hinv.destroyed_nodup, hinv.mem_destroyed_iff⟩
  · obtain ⟨s', heq, -⟩ := hinv.step tries hop
    exact ⟨s', heq⟩
  · have hobj : (s.refCount obj : ℤ) = s.held obj + (liveChildren _ _ _ obj).card :=
      hinv.balanced obj
    exact_mod_cast hobj

theorem hasRoom_of_le_one {s : State} (hcreated : s.created ≤ 2) (hheld : ∀ obj, s.held obj ≤ 1) :
    s.HasRoom := fun obj => by
  have := hheld obj
  omega

/-- The child falls to zero, and is referenced again. -/
theorem reachable_refCounts_child :
    ∃ s s' : State, Reachable (fun _ => true) s ∧ s.refCount 1 = 0 ∧ s.held 0 = 1 ∧
      step (fun _ => true) s (.getRef 1) = some s' ∧
      s'.refCount 0 = s'.held 0 + (liveChildren s'.created s'.parent s'.refCount 0).card ∧
      s'.refCount 0 = 2 ∧ s'.refCount 1 = 1 := by
  have hheld {s : State} (h : s.held = Function.update (Function.update (fun _ => 0) 0 1) 1 1 ∨
      s.held = Function.update (Function.update (Function.update (fun _ => 0) 0 1) 1 1) 1 0 ∨
      s.held = Function.update (fun _ => 0) 0 1) (obj : ℕ) : s.held obj ≤ 1 := by
    rcases h with h | h | h <;> rw [h] <;> simp only [Function.update_apply] <;> split_ifs <;> omega
  have hfirst := Reachable.step (.init : Reachable (fun _ => true) {})
    (show State.Valid _ (.init false false) from
      ⟨hasRoom_of_le_one (by decide) fun _ => Nat.zero_le 1, rfl⟩) rfl
  have hsecond := hfirst.step (show State.Valid _ (.init true false) from
    ⟨hasRoom_of_le_one (by decide) (hheld (.inr (.inr rfl))), rfl⟩) rfl
  have hlink := hsecond.step (show State.Valid _ (.setParent 1 0) from
    ⟨hasRoom_of_le_one (by decide) (hheld (.inl rfl)), ⟨1, ⟨1, rfl, .refl 1, .refl 1⟩, by decide⟩,
      ⟨0, ⟨0, rfl, .refl 0, .refl 0⟩, by decide⟩, rfl, rfl,
      fun h => absurd ((below_root_iff rfl).mp h) (by decide)⟩) rfl
  have hput := hlink.step (show State.Valid _ (.putRef 1) from Nat.one_ne_zero) rfl
  have hget := hput.step (show State.Valid _ (.getRef 1) from
    ⟨hasRoom_of_le_one (by decide) (hheld (.inr (.inl rfl))),
      0, ⟨0, rfl, below_parent rfl, .refl 0⟩, by decide⟩) rfl
  exact ⟨_, _, hput, rfl, rfl, rfl, (reachable_refCounts _ _ hget).2.1 0, rfl, rfl⟩

/-- A connection of which the graph is still held is destroyed when its last reference is put. -/
theorem listener_destroys :
    ∃ s s' : State, step (fun _ => true) (init true true (init false false {})) (.setParent 1 0) =
        some s ∧
      s.Valid (.putRef 1) ∧ step (fun _ => true) s (.putRef 1) = some s' ∧
      s'.destroyed = [1] ∧ s'.held 0 = 1 ∧ s'.Referenced 1 :=
  ⟨_, _, rfl, Nat.one_ne_zero, rfl, rfl, rfl, 0, ⟨0, rfl, below_parent rfl, .refl 0⟩, by decide⟩

end Babeltrace.ObjectRefs
