import Mathlib

/-!
# Destruction listeners

The listeners of a trace, or of a trace class, are the elements of an array with holes, and the
identifier of one is its index when it's added. An addition which reuses a hole inserts an element
there, so that the elements which follow leave their indexes.
-/
namespace Babeltrace.Listeners

variable {F D : Type}

/-- A null function makes a hole. -/
structure ListenerElem (F D : Type) where
  func : Option F
  data : Option D
  deriving DecidableEq

inductive Owner
  | trace
  | traceClass
  deriving DecidableEq

inductive Abort
  /-- `BT_ASSERT()` -/
  | assertion
  /-- `BT_ASSERT_PRE()` -/
  | precondition (id msg : String)
  deriving DecidableEq

def gArrayInsertVal {α : Type} (array : List α) (i : ℕ) (elem : α) : List α :=
  array.take i ++ elem :: array.drop i

def addDestructionListener (listeners : List (ListenerElem F D)) (listener : F) (data : Option D) :
    List (ListenerElem F D) × ℕ :=
  let newElem := { func := some listener, data }
  let i := listeners.findIdx (·.func.isNone)
  if i = listeners.length then (listeners ++ [newElem], i)
  else (gArrayInsertVal listeners i newElem, i)

def Owner.noSuchListenerMsg : Owner → String
  | .trace => "Trace has no such trace destruction listener ID"
  | .traceClass => "Trace class has no such trace class destruction listener ID"

/-- `bt_trace_remove_destruction_listener()` and `bt_trace_class_remove_destruction_listener()` -/
def removeDestructionListener (owner : Owner) (listeners : List (ListenerElem F D))
    (listenerId : ℕ) : Except Abort (List (ListenerElem F D)) :=
  match listeners[listenerId]? with
  | none => .error .assertion
  | some elem =>
    if elem.func.isNone then .error (.precondition "listener-id-exists" owner.noSuchListenerMsg)
    else .ok (listeners.set listenerId { func := none, data := none })

/-- The calls which `destroy_trace()` and `destroy_trace_class()` make -/
def destroyCalls (listeners : List (ListenerElem F D)) : List (F × Option D) :=
  listeners.filterMap fun elem => elem.func.map (·, elem.data)

/-! ## Users -/

structure Reg (F D : Type) where
  id : ℕ
  func : F
  data : Option D
  deriving DecidableEq

structure Sys (F D : Type) where
  listeners : List (ListenerElem F D) := []
  present : List (Reg F D) := []

def Sys.add (s : Sys F D) (listener : F) (data : Option D) : Sys F D :=
  let (listeners, id) := addDestructionListener s.listeners listener data
  { listeners, present := s.present ++ [{ id, func := listener, data }] }

def Sys.NoGap (s : Sys F D) : Prop :=
  ∀ reg ∈ s.present, ∀ i < reg.id, ∃ reg' ∈ s.present, reg'.id = i

inductive Step (owner : Owner) : Sys F D → Sys F D → Prop
  | add (s : Sys F D) (listener : F) (data : Option D) (noGap : s.NoGap) :
    Step owner s (s.add listener data)
  | remove (s : Sys F D) (k : ℕ) (reg : Reg F D) (listeners : List (ListenerElem F D))
    (reg_eq : s.present[k]? = some reg)
    (removes : removeDestructionListener owner s.listeners reg.id = .ok listeners) :
    Step owner s { listeners, present := s.present.eraseIdx k }

structure Sys.Correct (owner : Owner) (s : Sys F D) : Prop where
  ids_nodup : (s.present.map (·.id)).Nodup
  removal : ∀ k reg, s.present[k]? = some reg → ∃ listeners,
    removeDestructionListener owner s.listeners reg.id = .ok listeners ∧
      (destroyCalls listeners).Perm ((s.present.eraseIdx k).map fun reg => (reg.func, reg.data))
  destruction : (destroyCalls s.listeners).Perm (s.present.map fun reg => (reg.func, reg.data))

/-! ## Indexes of the listeners of an array -/

/-- The listeners of an array of which the first index is `n` -/
def regsFrom (n : ℕ) : List (ListenerElem F D) → List (Reg F D)
  | [] => []
  | elem :: elems =>
    match elem.func with
    | none => regsFrom (n + 1) elems
    | some func => { id := n, func, data := elem.data } :: regsFrom (n + 1) elems

theorem regsFrom_append (n : ℕ) (xs ys : List (ListenerElem F D)) :
    regsFrom n (xs ++ ys) = regsFrom n xs ++ regsFrom (n + xs.length) ys := by
  induction xs generalizing n with
  | nil => rfl
  | cons x xs ih =>
    simp only [List.cons_append, regsFrom, List.length_cons, ih, Nat.add_assoc,
      Nat.add_comm 1 xs.length]
    cases x.func <;> rfl

theorem destroyCalls_eq (n : ℕ) (xs : List (ListenerElem F D)) :
    destroyCalls xs = (regsFrom n xs).map fun reg => (reg.func, reg.data) := by
  induction xs generalizing n with
  | nil => rfl
  | cons x xs ih =>
    have htail := ih (n + 1)
    unfold destroyCalls at htail ⊢
    rw [List.filterMap_cons, regsFrom]
    cases x.func with
    | none => exact htail
    | some func => simp [htail]

variable {n : ℕ} {xs : List (ListenerElem F D)} {reg : Reg F D} {s : Sys F D}

theorem le_of_mem_regsFrom (h : reg ∈ regsFrom n xs) : n ≤ reg.id := by
  induction xs generalizing n with
  | nil => cases h
  | cons x xs ih =>
    rw [regsFrom] at h
    split at h
    · exact (Nat.le_succ n).trans (ih h)
    · obtain rfl | h := List.mem_cons.mp h
      · exact le_rfl
      · exact (Nat.le_succ n).trans (ih h)

theorem regsFrom_ids_nodup (n : ℕ) (xs : List (ListenerElem F D)) :
    ((regsFrom n xs).map (·.id)).Nodup := by
  induction xs generalizing n with
  | nil => exact .nil
  | cons x xs ih =>
    rw [regsFrom]
    split
    · exact ih (n + 1)
    · refine List.nodup_cons.mpr ⟨?_, ih (n + 1)⟩
      rw [List.mem_map]
      rintro ⟨reg, hreg, rfl⟩
      have := le_of_mem_regsFrom hreg
      omega

theorem regsFrom_eq_nil_iff (n : ℕ) (xs : List (ListenerElem F D)) :
    regsFrom n xs = [] ↔ ∀ x ∈ xs, x.func = none := by
  induction xs generalizing n with
  | nil => simp [regsFrom]
  | cons x xs ih =>
    rw [regsFrom]
    cases hfunc : x.func <;> simp [ih, hfunc]

theorem split_of_mem_regsFrom (h : reg ∈ regsFrom n xs) : ∃ ys zs,
      xs = ys ++ { func := some reg.func, data := reg.data } :: zs ∧ reg.id = n + ys.length := by
  induction xs generalizing n with
  | nil => cases h
  | cons x xs ih =>
    have hlater (h : reg ∈ regsFrom (n + 1) xs) : ∃ ys zs,
        x :: xs = ys ++ { func := some reg.func, data := reg.data } :: zs ∧
          reg.id = n + ys.length := by
      obtain ⟨ys, zs, rfl, hid⟩ := ih h
      exact ⟨x :: ys, zs, rfl, by rw [List.length_cons]; omega⟩
    rw [regsFrom] at h
    split at h
    · exact hlater h
    · rename_i func hfunc
      obtain rfl | h := List.mem_cons.mp h
      · exact ⟨[], xs, by rw [← hfunc]; rfl, rfl⟩
      · exact hlater h

theorem lt_of_mem_regsFrom (h : reg ∈ regsFrom n xs) : reg.id < n + xs.length := by
  obtain ⟨ys, zs, rfl, hid⟩ := split_of_mem_regsFrom h
  simp only [List.length_append, List.length_cons]
  omega

theorem exists_mem_regsFrom (n : ℕ) (h : ∀ x ∈ xs, x.func ≠ none) {i : ℕ} (hi : i < xs.length) :
    ∃ reg ∈ regsFrom n xs, reg.id = n + i := by
  induction xs generalizing n i with
  | nil => cases hi
  | cons x xs ih =>
    obtain ⟨func, hfunc⟩ := Option.ne_none_iff_exists'.mp (h x List.mem_cons_self)
    rw [regsFrom, hfunc]
    cases i with
    | zero => exact ⟨_, List.mem_cons_self, rfl⟩
    | succ i =>
      obtain ⟨reg, hreg, hid⟩ := ih (n + 1) (fun x hx => h x (List.mem_cons_of_mem _ hx))
        (Nat.lt_of_succ_lt_succ hi)
      exact ⟨reg, List.mem_cons_of_mem _ hreg, by omega⟩

theorem exists_first_of_regsFrom_ne_nil (h : regsFrom n xs ≠ []) :
    ∃ reg ∈ regsFrom n xs, ∃ holes zs,
      xs = holes ++ zs ∧ (∀ x ∈ holes, x.func = none) ∧ reg.id = n + holes.length := by
  induction xs generalizing n with
  | nil => exact absurd rfl h
  | cons x xs ih =>
    rw [regsFrom] at h ⊢
    cases hfunc : x.func with
    | some func => exact ⟨_, List.mem_cons_self, [], _, rfl, by simp, rfl⟩
    | none =>
      rw [hfunc] at h
      obtain ⟨reg, hreg, holes, zs, rfl, hholes, hid⟩ := ih h
      refine ⟨reg, hreg, x :: holes, zs, rfl, ?_, ?_⟩
      · simpa [hfunc] using hholes
      · rw [List.length_cons]
        omega

/-! ## Operations -/

theorem removeDestructionListener_split (owner : Owner) (ys zs : List (ListenerElem F D))
    (func : F) (data : Option D) :
    removeDestructionListener owner (ys ++ { func := some func, data } :: zs) ys.length =
      .ok (ys ++ { func := none, data := none } :: zs) := by
  simp [removeDestructionListener]

theorem regsFrom_hole (n : ℕ) (ys zs : List (ListenerElem F D)) (data : Option D) :
    regsFrom n (ys ++ { func := none, data } :: zs) =
      regsFrom n ys ++ regsFrom (n + ys.length + 1) zs := by
  rw [regsFrom_append]
  rfl

theorem regsFrom_taken (n : ℕ) (ys zs : List (ListenerElem F D)) (func : F) (data : Option D) :
    regsFrom n (ys ++ { func := some func, data } :: zs) =
      regsFrom n ys ++ { id := n + ys.length, func, data } ::
        regsFrom (n + ys.length + 1) zs := by
  rw [regsFrom_append]
  rfl

def StartsWithHole (zs : List (ListenerElem F D)) : Prop := ∀ z ∈ zs.head?, z.func = none

theorem StartsWithHole.lt_of_mem_regsFrom {zs : List (ListenerElem F D)} (h : StartsWithHole zs)
    (hreg : reg ∈ regsFrom n zs) : n < reg.id := by
  cases zs with
  | nil => cases hreg
  | cons z zs =>
    rw [regsFrom, h z rfl] at hreg
    exact le_of_mem_regsFrom hreg

theorem addDestructionListener_cases (listeners : List (ListenerElem F D)) (listener : F)
    (data : Option D) : ∃ ys zs, listeners = ys ++ zs ∧ (∀ y ∈ ys, y.func ≠ none) ∧
      StartsWithHole zs ∧ addDestructionListener listeners listener data =
        (ys ++ { func := some listener, data } :: zs, ys.length) := by
  let i := listeners.findIdx (·.func.isNone)
  have hle : i ≤ listeners.length := List.findIdx_le_length
  have hlength : (listeners.take i).length = i := by rw [List.length_take]; omega
  refine ⟨listeners.take i, listeners.drop i, (List.take_append_drop i listeners).symm, ?_, ?_, ?_⟩
  · intro y hy
    obtain ⟨k, hk, rfl⟩ := List.mem_take_iff_getElem.mp hy
    have hnot := List.not_of_lt_findIdx (show k < i by omega)
    exact Option.isSome_iff_ne_none.mp (by simpa using hnot)
  · intro z hz
    rw [List.head?_drop] at hz
    obtain ⟨hlt, rfl⟩ := List.getElem?_eq_some_iff.mp hz
    have hhole : (listeners[i]).func.isNone := @List.findIdx_getElem _ _ listeners hlt
    exact Option.isNone_iff_eq_none.mp hhole
  · rw [hlength, addDestructionListener]
    split
    · rename_i heq
      rw [List.take_of_length_le heq.ge, List.drop_eq_nil_of_le heq.ge]
    · rfl

/-! ## Runs -/

def Sys.Inv (s : Sys F D) : Prop := s.present.Perm (regsFrom 0 s.listeners)

theorem Sys.Inv.remove (h : s.Inv) (owner : Owner) {k : ℕ} (hreg : s.present[k]? = some reg) :
    ∃ listeners,
      removeDestructionListener owner s.listeners reg.id = .ok listeners ∧
        (s.present.eraseIdx k).Perm (regsFrom 0 listeners) := by
  obtain ⟨hk, hget⟩ := List.getElem?_eq_some_iff.mp hreg
  have hmem : reg ∈ regsFrom 0 s.listeners := h.mem_iff.mp (hget ▸ List.getElem_mem hk)
  obtain ⟨ys, zs, hsplit, hid⟩ := split_of_mem_regsFrom hmem
  rw [Nat.zero_add] at hid
  refine ⟨ys ++ { func := none, data := none } :: zs, ?_, ?_⟩
  · rw [hsplit, hid, removeDestructionListener_split]
  · have hreg' : ({ id := ys.length, func := reg.func, data := reg.data } : Reg F D) = reg := by
      rw [← hid]
    have hperm : (reg :: s.present.eraseIdx k).Perm (regsFrom 0 s.listeners) := by
      refine .trans ?_ h
      rw [← hget]
      exact List.getElem_cons_eraseIdx_perm hk
    rw [hsplit, regsFrom_taken, Nat.zero_add, hreg'] at hperm
    rw [regsFrom_hole, Nat.zero_add]
    exact (hperm.trans List.perm_middle).cons_inv

theorem Sys.Inv.correct (h : s.Inv) (owner : Owner) : s.Correct owner where
  ids_nodup := (h.map (·.id)).nodup_iff.mpr (regsFrom_ids_nodup 0 s.listeners)
  removal k reg hreg := by
    obtain ⟨listeners, hremove, hperm⟩ := h.remove owner hreg
    refine ⟨listeners, hremove, ?_⟩
    rw [destroyCalls_eq 0]
    exact (hperm.map _).symm
  destruction := by
    rw [destroyCalls_eq 0]
    exact (h.map _).symm

section
variable {s : Sys F D} {ys zs : List (ListenerElem F D)}

theorem Sys.Inv.noGap_iff (h : s.Inv) (hsplit : s.listeners = ys ++ zs)
    (hys : ∀ y ∈ ys, y.func ≠ none) (hzs : StartsWithHole zs) :
    s.NoGap ↔ ∀ z ∈ zs, z.func = none := by
  have hmem (reg : Reg F D) : reg ∈ s.present ↔
      reg ∈ regsFrom 0 ys ∨ reg ∈ regsFrom ys.length zs := by
    rw [h.mem_iff, hsplit, regsFrom_append, Nat.zero_add, List.mem_append]
  have hbefore {reg : Reg F D} (hreg : reg ∈ regsFrom 0 ys) : reg.id < ys.length := by
    have := lt_of_mem_regsFrom hreg
    omega
  rw [← regsFrom_eq_nil_iff ys.length]
  constructor
  · intro hgap
    by_contra hne
    obtain ⟨reg, hreg⟩ := List.exists_mem_of_ne_nil _ hne
    obtain ⟨reg', hreg', hid⟩ := hgap reg ((hmem reg).mpr (.inr hreg)) ys.length
      (hzs.lt_of_mem_regsFrom hreg)
    obtain hreg' | hreg' := (hmem reg').mp hreg'
    · exact absurd (hbefore hreg') (by omega)
    · exact absurd (hzs.lt_of_mem_regsFrom hreg') (by omega)
  · intro hnil reg hreg i hi
    rw [hmem, hnil] at hreg
    have hlt := hbefore (hreg.resolve_right List.not_mem_nil)
    obtain ⟨reg', hreg', hid⟩ := exists_mem_regsFrom 0 hys (hi.trans hlt)
    exact ⟨reg', (hmem reg').mpr (.inl hreg'), by omega⟩

theorem Sys.Inv.add (h : s.Inv) (hgap : s.NoGap) (listener : F) (data : Option D) :
    (s.add listener data).Inv := by
  obtain ⟨ys, zs, hsplit, hys, hzs, hadd⟩ :=
    addDestructionListener_cases s.listeners listener data
  have hnone (n : ℕ) : regsFrom n zs = [] :=
    (regsFrom_eq_nil_iff n zs).mpr ((h.noGap_iff hsplit hys hzs).mp hgap)
  rw [Sys.Inv, hsplit, regsFrom_append, hnone, List.append_nil] at h
  simp only [Sys.Inv, Sys.add, hadd, regsFrom_taken, hnone, Nat.zero_add]
  exact h.append_right _

theorem Sys.Inv.not_correct_add (h : s.Inv) (hgap : ¬ s.NoGap) (owner : Owner) (listener : F)
    (data : Option D) : ¬ (s.add listener data).Correct owner := by
  obtain ⟨ys, zs, hsplit, hys, hzs, hadd⟩ :=
    addDestructionListener_cases s.listeners listener data
  rw [h.noGap_iff hsplit hys hzs, ← regsFrom_eq_nil_iff ys.length] at hgap
  obtain ⟨reg, hreg, holes, rest, rfl, hholes, hid⟩ := exists_first_of_regsFrom_ne_nil hgap
  have hpos : ys.length < reg.id := hzs.lt_of_mem_regsFrom hreg
  have hpresent : reg ∈ s.present := by
    rw [h.mem_iff, hsplit, regsFrom_append, Nat.zero_add]
    exact List.mem_append_right _ hreg
  obtain ⟨k, hk⟩ := List.mem_iff_getElem?.mp hpresent
  intro hcorrect
  obtain ⟨listeners, hremove, -⟩ := hcorrect.removal k reg (by
    simp only [Sys.add]
    rw [List.getElem?_append_left (List.getElem?_eq_some_iff.mp hk).1, hk])
  -- The element at this index is the one which was before.
  obtain rfl | ⟨holes', hole, rfl⟩ := List.eq_nil_or_concat' holes
  · exact absurd hpos (by rw [hid]; simp)
  have hget : (ys ++ { func := some listener, data } :: (holes' ++ [hole] ++ rest))[reg.id]? =
      some hole := by
    have hlength : reg.id = (ys ++ { func := some listener, data } :: holes').length := by
      rw [hid]
      simp
    rw [hlength, show ys ++ { func := some listener, data } :: (holes' ++ [hole] ++ rest) =
      (ys ++ { func := some listener, data } :: holes') ++ hole :: rest by simp,
      List.getElem?_append_right le_rfl, Nat.sub_self]
    rfl
  have hhole : hole.func = none := hholes hole (by simp)
  simp only [Sys.add, hadd, removeDestructionListener, hget, hhole] at hremove
  cases hremove

end

theorem inv_of_steps {owner : Owner} (h : Relation.ReflTransGen (Step owner) {} s) : s.Inv := by
  induction h with
  | refl => exact .nil
  | tail _ hstep ih =>
    cases hstep with
    | add listener data hgap => exact ih.add hgap listener data
    | remove k reg listeners hreg hremove =>
      obtain ⟨listeners', hremove', hperm⟩ := ih.remove owner hreg
      rw [hremove] at hremove'
      cases hremove'
      exact hperm

/-- As long as no identifier is free below one which is present at each addition, removals remove
the listeners of their users and the destruction calls those which are present. -/
theorem correct_of_steps {owner : Owner} {s : Sys F D}
    (h : Relation.ReflTransGen (Step owner) {} s) :
    s.Correct owner ∧
      ∀ listener data, (s.add listener data).Correct owner ↔ s.NoGap := by
  have hinv := inv_of_steps h
  refine ⟨hinv.correct owner, fun listener data => ⟨fun hcorrect => ?_, fun hgap => ?_⟩⟩
  · by_contra hgap
    exact hinv.not_correct_add hgap owner listener data hcorrect
  · exact (hinv.add hgap listener data).correct owner

theorem correct_of_steps_remove_first :
    (⟨[⟨none, none⟩, ⟨some 1, none⟩], [⟨1, 1, none⟩]⟩ : Sys ℕ ℕ).Correct .trace := by
  have hadd : Relation.ReflTransGen (Step .trace) ({} : Sys ℕ ℕ)
      ⟨[⟨some 0, none⟩, ⟨some 1, none⟩], [⟨0, 0, none⟩, ⟨1, 1, none⟩]⟩ := by
    refine .tail (.single (.add {} 0 none ?_)) (.add _ 1 none ?_)
    · rintro reg ⟨⟩
    · intro reg hreg i hi
      rw [List.mem_singleton.mp hreg] at hi
      cases hi
  exact (correct_of_steps (hadd.tail (.remove _ 0 ⟨0, 0, none⟩ _ rfl rfl))).1

theorem removeDestructionListener_after_reuse :
    let s : Sys ℕ ℕ := { listeners := [⟨none, none⟩, ⟨some 1, none⟩], present := [⟨1, 1, none⟩] }
    (s.add 2 none).present = [⟨1, 1, none⟩, ⟨0, 2, none⟩] ∧
      removeDestructionListener .trace (s.add 2 none).listeners 1 =
        .error (.precondition "listener-id-exists"
          "Trace has no such trace destruction listener ID") := by
  decide

end Babeltrace.Listeners
