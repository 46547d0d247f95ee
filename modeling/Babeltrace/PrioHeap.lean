import Mathlib

/-!
# Binary heaps in a vector

A binary heap with a comparator `gt` (the greatest element is at the top). The elements have keys in
a preorder which the comparator respects; it decides as it likes between equal keys.
-/
namespace Babeltrace.PrioHeap

variable {T : Type}

def parentPos (pos : ℕ) : ℕ := (pos - 1) / 2

theorem parentPos_lt {pos : ℕ} (h : pos ≠ 0) : parentPos pos < pos := by
  unfold parentPos
  omega

section

variable (gt : T → T → Bool)

def siftUp (elem : T) (elems : List T) (pos : ℕ) : List T :=
  if pos = 0 then elems.set pos elem
  else
    match elems[parentPos pos]? with
    | none => elems.set pos elem
    | some parent =>
      if gt elem parent then siftUp elem (elems.set pos parent) (parentPos pos)
      else elems.set pos elem
termination_by pos
decreasing_by exact parentPos_lt ‹_›

def insert (elems : List T) (elem : T) : List T := siftUp gt elem (elems ++ [elem]) elems.length

def gtAt (elems : List T) (i j : ℕ) : Bool :=
  match elems[i]?, elems[j]? with
  | some a, some b => gt a b
  | _, _ => false

def swap (elems : List T) (i j : ℕ) : List T :=
  match elems[i]?, elems[j]? with
  | some a, some b => (elems.set i b).set j a
  | _, _ => elems

def largerPos (elems : List T) (i j : ℕ) : ℕ := if gtAt gt elems i j then i else j

def largestPos (elems : List T) (pos : ℕ) : ℕ :=
  largerPos gt elems (2 * pos + 2) (largerPos gt elems (2 * pos + 1) pos)

end

variable {i j : ℕ} {elem : T}

theorem gtAt_lt {gt : T → T → Bool} {elems : List T} (h : gtAt gt elems i j = true) :
    i < elems.length := by
  unfold gtAt at h
  split at h
  · exact (List.getElem?_eq_some_iff.mp ‹_›).1
  · cases h

theorem length_swap (elems : List T) (i j : ℕ) : (swap elems i j).length = elems.length := by
  unfold swap
  split <;> simp

theorem largerPos_cases (gt : T → T → Bool) (elems : List T) (i j : ℕ) :
    (gtAt gt elems i j = true ∧ largerPos gt elems i j = i) ∨
      (gtAt gt elems i j = false ∧ largerPos gt elems i j = j) := by
  cases h : gtAt gt elems i j <;> simp [largerPos, h]

theorem lt_largestPos {gt : T → T → Bool} {elems : List T} {pos : ℕ}
    (h : largestPos gt elems pos ≠ pos) :
    pos < largestPos gt elems pos ∧ largestPos gt elems pos < elems.length := by
  unfold largestPos at h ⊢
  rcases largerPos_cases gt elems (2 * pos + 1) pos with ⟨hleft, heq⟩ | ⟨-, heq⟩ <;>
    rw [heq] at h ⊢
  · rcases largerPos_cases gt elems (2 * pos + 2) (2 * pos + 1) with ⟨hright, heq⟩ | ⟨-, heq⟩ <;>
      rw [heq]
    · exact ⟨by omega, gtAt_lt hright⟩
    · exact ⟨by omega, gtAt_lt hleft⟩
  · rcases largerPos_cases gt elems (2 * pos + 2) pos with ⟨hright, heq⟩ | ⟨-, heq⟩ <;>
      rw [heq] at h ⊢
    · exact ⟨by omega, gtAt_lt hright⟩
    · exact absurd rfl h

section

variable (gt : T → T → Bool)

def heapify (elems : List T) (pos : ℕ) : List T :=
  if largestPos gt elems pos = pos then elems
  else heapify (swap elems pos (largestPos gt elems pos)) (largestPos gt elems pos)
termination_by elems.length - pos
decreasing_by
  have := lt_largestPos ‹_›
  rw [length_swap]
  omega

def replaceTop (elems : List T) (elem : T) : List T := heapify gt (elems.set 0 elem) 0

def removeTop (elems : List T) : List T :=
  match elems.getLast? with
  | none => []
  | some last => if elems.length = 1 then [] else replaceTop gt elems.dropLast last

end

/-! ## Elements -/

section

variable {gt : T → T → Bool} {elems : List T} {pos : ℕ}

theorem set_eraseIdx_perm {a : T} (hpos : pos < elems.length) (hi : elems[i]? = some a)
    (hne : i ≠ pos) : ((elems.set pos a).eraseIdx i).Perm (elems.eraseIdx pos) := by
  obtain ⟨hlt, ha⟩ := List.getElem?_eq_some_iff.mp hi
  have hlt' : i < (elems.set pos a).length := by simpa using hlt
  have hget : (elems.set pos a)[i] = a := by rw [List.getElem_set_ne hne.symm, ha]
  have herase := List.getElem_cons_eraseIdx_perm hlt'
  rw [hget] at herase
  exact List.Perm.cons_inv (herase.trans (List.set_perm_cons_eraseIdx hpos a))

theorem siftUp_perm (gt : T → T → Bool) (elem : T) (elems : List T) (pos : ℕ)
    (hpos : pos < elems.length) :
    (siftUp gt elem elems pos).Perm (elem :: elems.eraseIdx pos) := by
  induction elems, pos using siftUp.induct gt elem with
  | case1 elems =>
    rw [siftUp, if_pos rfl]
    exact List.set_perm_cons_eraseIdx hpos elem
  | case2 elems pos hne hparent =>
    rw [siftUp, if_neg hne, hparent]
    exact List.set_perm_cons_eraseIdx hpos elem
  | case3 elems pos hne parent hparent hgt ih =>
    rw [siftUp, if_neg hne, hparent]
    simp only [hgt, if_true]
    have hlt := parentPos_lt hne
    refine (ih (by rw [List.length_set]; omega)).trans (List.Perm.cons elem ?_)
    exact set_eraseIdx_perm hpos hparent (by omega)
  | case4 elems pos hne parent hparent hgt =>
    rw [siftUp, if_neg hne, hparent]
    simp only [hgt]
    exact List.set_perm_cons_eraseIdx hpos elem

theorem insert_perm (elems : List T) (elem : T) : (insert gt elems elem).Perm (elem :: elems) := by
  have h := siftUp_perm gt elem (elems ++ [elem]) elems.length (by simp)
  rwa [List.eraseIdx_append_of_length_le (Nat.le_refl _), Nat.sub_self, List.eraseIdx_zero,
    List.tail_cons, List.append_nil] at h

theorem swap_perm (elems : List T) (hne : i ≠ j) : (swap elems i j).Perm elems := by
  unfold swap
  split
  · rename_i a b hi hj
    obtain ⟨hilt, ha⟩ := List.getElem?_eq_some_iff.mp hi
    obtain ⟨hjlt, -⟩ := List.getElem?_eq_some_iff.mp hj
    have hset := List.set_perm_cons_eraseIdx (l := elems.set i b) (by simpa using hjlt) a
    refine hset.trans (((set_eraseIdx_perm hilt hj hne.symm).cons a).trans ?_)
    rw [← ha]
    exact List.getElem_cons_eraseIdx_perm hilt
  · rfl

theorem heapify_perm (elems : List T) (pos : ℕ) : (heapify gt elems pos).Perm elems := by
  induction elems, pos using heapify.induct gt with
  | case1 elems pos h =>
    rw [heapify, if_pos h]
  | case2 elems pos h ih =>
    rw [heapify, if_neg h]
    exact ih.trans (swap_perm elems (Ne.symm h))

theorem replaceTop_perm (hne : elems ≠ []) (elem : T) :
    (replaceTop gt elems elem).Perm (elem :: elems.tail) := by
  refine (heapify_perm _ 0).trans ?_
  cases elems with
  | nil => exact absurd rfl hne
  | cons top rest => rfl

theorem removeTop_perm (elems : List T) : (removeTop gt elems).Perm elems.tail := by
  unfold removeTop
  split
  · rename_i h
    rw [List.getLast?_eq_none_iff.mp h]
    rfl
  · rename_i last hlast
    split
    · rename_i hlength
      obtain ⟨elem, rfl⟩ := List.length_eq_one_iff.mp hlength
      rfl
    · rename_i hlength
      obtain ⟨top, rest, rfl⟩ : ∃ top rest, elems = top :: rest := by
        cases elems with
        | nil => cases hlast
        | cons top rest => exact ⟨top, rest, rfl⟩
      have hrest : rest ≠ [] := by
        rintro rfl
        exact hlength rfl
      have hlast' : rest.getLast hrest = last := by
        rw [List.getLast?_cons_of_ne_nil hrest, List.getLast?_eq_some_getLast hrest] at hlast
        exact Option.some.inj hlast
      have hdrop : (top :: rest).dropLast ≠ [] := by
        rw [List.dropLast_cons_of_ne_nil hrest]
        exact List.cons_ne_nil _ _
      refine (replaceTop_perm hdrop last).trans ?_
      rw [List.dropLast_cons_of_ne_nil hrest, List.tail_cons, List.tail_cons, ← hlast']
      conv_rhs => rw [← List.dropLast_append_getLast hrest]
      exact (List.perm_append_singleton _ _).symm

end

/-! ## Order -/

section

variable {K : Type} [Preorder K] (gt : T → T → Bool) (key : T → K)

def Respects : Prop :=
  ∀ a b, (gt a b = true → key a ≤ key b) ∧ (gt a b = false → key b ≤ key a)

def Ordered (P : ℕ → Prop) (elems : List T) : Prop :=
  ∀ i parent child, i ≠ 0 → P i → elems[parentPos i]? = some parent → elems[i]? = some child →
    key parent ≤ key child

def IsHeap (elems : List T) : Prop := Ordered key (fun _ => True) elems

def IsHeapBelow (elems : List T) : Prop := Ordered key (fun i => parentPos i ≠ 0) elems

structure UpReady (elem : T) (elems : List T) (pos : ℕ) : Prop where
  others : Ordered key (fun i => i ≠ pos ∧ parentPos i ≠ pos) elems
  grand : ∀ i grand child, pos ≠ 0 → i ≠ 0 → parentPos i = pos →
    elems[parentPos pos]? = some grand → elems[i]? = some child → key grand ≤ key child
  below : ∀ i child, i ≠ 0 → parentPos i = pos → elems[i]? = some child → key elem ≤ key child

structure DownReady (elems : List T) (pos : ℕ) : Prop where
  others : Ordered key (fun i => parentPos i ≠ pos) elems
  grand : ∀ i grand child, pos ≠ 0 → i ≠ 0 → parentPos i = pos →
    elems[parentPos pos]? = some grand → elems[i]? = some child → key grand ≤ key child

end

section

variable {K : Type} [Preorder K] {gt : T → T → Bool} {key : T → K} {elems : List T} {pos : ℕ}

theorem getElem?_set_self (h : pos < elems.length) :
    (elems.set pos elem)[pos]? = some elem := by
  simp [h]

theorem getElem?_set_ne (h : i ≠ pos) : (elems.set pos elem)[i]? = elems[i]? := by
  rw [List.getElem?_set_ne h.symm]

theorem UpReady.set (h : UpReady key elem elems pos) (hpos : pos < elems.length)
    (habove : ∀ parent, pos ≠ 0 → elems[parentPos pos]? = some parent → key parent ≤ key elem) :
    IsHeap key (elems.set pos elem) := by
  intro i parent child hi _ hparent hchild
  by_cases hipos : i = pos
  · subst hipos
    have hne := Nat.ne_of_lt (parentPos_lt hi)
    rw [getElem?_set_self hpos] at hchild
    rw [getElem?_set_ne hne] at hparent
    cases hchild
    exact habove parent hi hparent
  · rw [getElem?_set_ne hipos] at hchild
    by_cases hppos : parentPos i = pos
    · rw [hppos, getElem?_set_self hpos] at hparent
      cases hparent
      exact h.below i child hi hppos hchild
    · rw [getElem?_set_ne hppos] at hparent
      exact h.others i parent child hi ⟨hipos, hppos⟩ hparent hchild

theorem UpReady.move (hgt : Respects gt key) {parent : T} (h : UpReady key elem elems pos)
    (hpos : pos < elems.length) (hne : pos ≠ 0) (hparent : elems[parentPos pos]? = some parent)
    (hgreater : gt elem parent = true) :
    UpReady key elem (elems.set pos parent) (parentPos pos) := by
  have hlt := parentPos_lt hne
  have hle : key elem ≤ key parent := (hgt elem parent).1 hgreater
  -- the other children of the parent
  have hsibling : ∀ i child, i ≠ 0 → i ≠ pos → parentPos i = parentPos pos →
      elems[i]? = some child → key parent ≤ key child := by
    intro i child hi hipos hsame hchild
    refine h.others i parent child hi ⟨hipos, ?_⟩ ?_ hchild
    · omega
    · rw [hsame]
      exact hparent
  refine ⟨?_, ?_, ?_⟩
  · rintro i grand child hi ⟨hiparent, hpi⟩ hgrand hchild
    have hipos : i ≠ pos := by
      rintro rfl
      exact hpi rfl
    rw [getElem?_set_ne hipos] at hchild
    by_cases hppos : parentPos i = pos
    · rw [hppos, getElem?_set_self hpos] at hgrand
      cases hgrand
      exact h.grand i parent child hne hi hppos hparent hchild
    · rw [getElem?_set_ne hppos] at hgrand
      exact h.others i grand child hi ⟨hipos, hppos⟩ hgrand hchild
  · intro i grand child hne' hi hpi hgrand hchild
    have hlt' := parentPos_lt hne'
    rw [getElem?_set_ne (by omega)] at hgrand
    have hgrandParent : key grand ≤ key parent :=
      h.others (parentPos pos) grand parent hne' ⟨Nat.ne_of_lt hlt, by omega⟩ hgrand hparent
    by_cases hipos : i = pos
    · rw [hipos, getElem?_set_self hpos] at hchild
      cases hchild
      exact hgrandParent
    · rw [getElem?_set_ne hipos] at hchild
      exact hgrandParent.trans (hsibling i child hi hipos hpi hchild)
  · intro i child hi hpi hchild
    by_cases hipos : i = pos
    · rw [hipos, getElem?_set_self hpos] at hchild
      cases hchild
      exact hle
    · rw [getElem?_set_ne hipos] at hchild
      exact hle.trans (hsibling i child hi hipos hpi hchild)

theorem siftUp_isHeap (hgt : Respects gt key) (elem : T) (elems : List T) (pos : ℕ)
    (hpos : pos < elems.length) (h : UpReady key elem elems pos) :
    IsHeap key (siftUp gt elem elems pos) := by
  induction elems, pos using siftUp.induct gt elem with
  | case1 elems =>
    rw [siftUp, if_pos rfl]
    exact h.set hpos fun _ hne => absurd rfl hne
  | case2 elems pos hne hparent =>
    rw [siftUp, if_neg hne, hparent]
    refine h.set hpos fun parent _ hsome => ?_
    rw [hparent] at hsome
    cases hsome
  | case3 elems pos hne parent hparent hgreater ih =>
    rw [siftUp, if_neg hne, hparent]
    simp only [hgreater, if_true]
    have hlt := parentPos_lt hne
    exact ih (by rw [List.length_set]; omega) (h.move hgt hpos hne hparent hgreater)
  | case4 elems pos hne parent hparent hgreater =>
    rw [siftUp, if_neg hne, hparent]
    simp only [hgreater]
    refine h.set hpos fun parent' _ hsome => ?_
    rw [hparent] at hsome
    cases hsome
    exact (hgt elem parent).2 (by simpa using hgreater)

theorem insert_isHeap (hgt : Respects gt key) (h : IsHeap key elems) (elem : T) :
    IsHeap key (insert gt elems elem) := by
  -- the last position has no children
  have hleaf : ∀ i child, i ≠ 0 → parentPos i = elems.length →
      (elems ++ [elem])[i]? = some child → False := by
    intro i child hi hpi hchild
    obtain ⟨hlt, -⟩ := List.getElem?_eq_some_iff.mp hchild
    have := parentPos_lt hi
    rw [List.length_append, List.length_singleton] at hlt
    omega
  refine siftUp_isHeap hgt elem _ _ (by simp) ⟨?_, ?_, ?_⟩
  · rintro i parent child hi ⟨hilast, hplast⟩ hparent hchild
    obtain ⟨hilt, -⟩ := List.getElem?_eq_some_iff.mp hchild
    rw [List.length_append, List.length_singleton] at hilt
    have hilt : i < elems.length := by omega
    have hplt := parentPos_lt hi
    rw [List.getElem?_append_left (by omega)] at hparent hchild
    exact h i parent child hi trivial hparent hchild
  · intro i grand child _ hi hpi _ hchild
    exact (hleaf i child hi hpi hchild).elim
  · intro i child hi hpi hchild
    exact (hleaf i child hi hpi hchild).elim

theorem gtAt_key (hgt : Respects gt key) {a b : T} (hi : elems[i]? = some a)
    (hj : elems[j]? = some b) :
    (gtAt gt elems i j = true → key a ≤ key b) ∧ (gtAt gt elems i j = false → key b ≤ key a) := by
  simp only [gtAt, hi, hj]
  exact hgt a b

theorem child_cases (hi : i ≠ 0) (h : parentPos i = pos) :
    i = 2 * pos + 1 ∨ i = 2 * pos + 2 := by
  unfold parentPos at h
  omega

theorem largestPos_spec (hgt : Respects gt key) (helem : elems[pos]? = some elem) :
    (largestPos gt elems pos = pos ∨
      (largestPos gt elems pos ≠ 0 ∧ parentPos (largestPos gt elems pos) = pos)) ∧
    ∃ largest, elems[largestPos gt elems pos]? = some largest ∧ key largest ≤ key elem ∧
      ∀ i child, i ≠ 0 → parentPos i = pos → elems[i]? = some child → key largest ≤ key child := by
  have hparent₁ : parentPos (2 * pos + 1) = pos := by
    unfold parentPos
    omega
  have hparent₂ : parentPos (2 * pos + 2) = pos := by
    unfold parentPos
    omega
  -- the greatest of the element and its left child
  obtain ⟨j, hj, hjpos, left, hleft, hleftElem, hleftChild⟩ :
      ∃ j, largerPos gt elems (2 * pos + 1) pos = j ∧ (j = pos ∨ j = 2 * pos + 1) ∧
        ∃ left, elems[j]? = some left ∧ key left ≤ key elem ∧
          ∀ child, elems[2 * pos + 1]? = some child → key left ≤ key child := by
    rcases largerPos_cases gt elems (2 * pos + 1) pos with ⟨hgreater, heq⟩ | ⟨hgreater, heq⟩
    · have hlt := gtAt_lt hgreater
      have hget := List.getElem?_eq_getElem hlt
      refine ⟨_, heq, .inr rfl, _, hget, (gtAt_key hgt hget helem).1 hgreater, ?_⟩
      intro child hchild
      rw [hget] at hchild
      cases hchild
      exact le_refl _
    · refine ⟨_, heq, .inl rfl, _, helem, le_refl _, fun child hchild => ?_⟩
      exact (gtAt_key hgt hchild helem).2 hgreater
  rw [largestPos, hj]
  rcases largerPos_cases gt elems (2 * pos + 2) j with ⟨hgreater, heq⟩ | ⟨hgreater, heq⟩
  · have hlt := gtAt_lt hgreater
    have hget := List.getElem?_eq_getElem hlt
    have hle := (gtAt_key hgt hget hleft).1 hgreater
    rw [heq]
    refine ⟨.inr ⟨by omega, hparent₂⟩, _, hget, hle.trans hleftElem, ?_⟩
    intro i child hi hpi hchild
    rcases child_cases hi hpi with rfl | rfl
    · exact hle.trans (hleftChild child hchild)
    · rw [hget] at hchild
      cases hchild
      exact le_refl _
  · rw [heq]
    refine ⟨?_, left, hleft, hleftElem, ?_⟩
    · rcases hjpos with rfl | rfl
      · exact .inl rfl
      · exact .inr ⟨by omega, hparent₁⟩
    · intro i child hi hpi hchild
      rcases child_cases hi hpi with rfl | rfl
      · exact hleftChild child hchild
      · exact (gtAt_key hgt hchild hleft).2 hgreater

theorem DownReady.isHeap (hgt : Respects gt key) (h : DownReady key elems pos)
    (hlargest : largestPos gt elems pos = pos) : IsHeap key elems := by
  intro i parent child hi _ hparent hchild
  by_cases hpi : parentPos i = pos
  · rw [hpi] at hparent
    obtain ⟨-, largest, hget, -, hmin⟩ := largestPos_spec hgt hparent
    rw [hlargest, hparent] at hget
    cases hget
    exact hmin i child hi hpi hchild
  · exact h.others i parent child hi hpi hparent hchild

theorem DownReady.move (hgt : Respects gt key) (h : DownReady key elems pos)
    (helem : elems[pos]? = some elem) (hne : largestPos gt elems pos ≠ pos) :
    DownReady key (swap elems pos (largestPos gt elems pos)) (largestPos gt elems pos) := by
  obtain ⟨hpos, hlt⟩ := lt_largestPos hne
  obtain ⟨hchild, largest, hget, hle, hmin⟩ := largestPos_spec hgt helem
  obtain ⟨hne0, hparent⟩ := hchild.resolve_left hne
  generalize largestPos gt elems pos = l at hne hpos hlt hget hne0 hparent ⊢
  have hswap : swap elems pos l = (elems.set pos largest).set l elem := by
    simp only [swap, helem, hget]
  have hself : (swap elems pos l)[l]? = some elem := by
    rw [hswap, getElem?_set_self (by simpa using hlt)]
  have hposget : (swap elems pos l)[pos]? = some largest := by
    rw [hswap, getElem?_set_ne hne.symm, getElem?_set_self (by omega)]
  have hother : ∀ i, i ≠ pos → i ≠ l → (swap elems pos l)[i]? = elems[i]? := by
    intro i hipos hil
    rw [hswap, getElem?_set_ne hil, getElem?_set_ne hipos]
  refine ⟨?_, ?_⟩
  · intro i parent child hi hpi hparent' hchild'
    by_cases hil : i = l
    · -- the element and the child which took its place
      rw [hil, hself] at hchild'
      rw [hil, hparent, hposget] at hparent'
      cases hchild'
      cases hparent'
      exact hle
    · by_cases hipos : i = pos
      · -- the child which took the place of the element, and the parent of the element
        subst hipos
        have hplt := parentPos_lt hi
        rw [hposget] at hchild'
        rw [hother _ (by omega) (by omega)] at hparent'
        cases hchild'
        exact h.grand l parent _ hi hne0 hparent hparent' hget
      · rw [hother i hipos hil] at hchild'
        by_cases hppos : parentPos i = pos
        · -- the other child
          rw [hppos, hposget] at hparent'
          cases hparent'
          exact hmin i child hi hppos hchild'
        · rw [hother _ hppos hpi] at hparent'
          exact h.others i parent child hi hppos hparent' hchild'
  · intro i grand child _ hi hpi hgrand hchild'
    have hplt := parentPos_lt hi
    rw [hparent, hposget] at hgrand
    cases hgrand
    rw [hother i (by omega) (by omega)] at hchild'
    refine h.others i largest child hi (by omega) ?_ hchild'
    rw [hpi]
    exact hget

theorem heapify_isHeap (hgt : Respects gt key) (elems : List T) (pos : ℕ)
    (hpos : pos < elems.length) (h : DownReady key elems pos) :
    IsHeap key (heapify gt elems pos) := by
  induction elems, pos using heapify.induct gt with
  | case1 elems pos heq =>
    rw [heapify, if_pos heq]
    exact h.isHeap hgt heq
  | case2 elems pos hne ih =>
    rw [heapify, if_neg hne]
    refine ih ?_ (h.move hgt (List.getElem?_eq_getElem hpos) hne)
    rw [length_swap]
    exact (lt_largestPos hne).2

theorem IsHeapBelow.set_zero (h : IsHeapBelow key elems) (elem : T) :
    DownReady key (elems.set 0 elem) 0 := by
  refine ⟨fun i parent child hi hpi hparent hchild => ?_, fun _ _ _ hne => absurd rfl hne⟩
  rw [getElem?_set_ne hpi] at hparent
  rw [getElem?_set_ne hi] at hchild
  exact h i parent child hi hpi hparent hchild

theorem replaceTop_isHeap (hgt : Respects gt key) (h : IsHeapBelow key elems) (hne : elems ≠ [])
    (elem : T) : IsHeap key (replaceTop gt elems elem) := by
  refine heapify_isHeap hgt _ 0 ?_ (h.set_zero elem)
  rw [List.length_set]
  exact List.length_pos_iff.mpr hne

theorem IsHeapBelow.dropLast (h : IsHeapBelow key elems) : IsHeapBelow key elems.dropLast := by
  intro i parent child hi hpi hparent hchild
  have hget : ∀ {j : ℕ} {a : T}, elems.dropLast[j]? = some a → elems[j]? = some a := by
    intro j a ha
    rw [List.getElem?_dropLast] at ha
    split at ha
    · exact ha
    · cases ha
  exact h i parent child hi hpi (hget hparent) (hget hchild)

theorem removeTop_isHeap (hgt : Respects gt key) (h : IsHeapBelow key elems) :
    IsHeap key (removeTop gt elems) := by
  have hnil : IsHeap key ([] : List T) := fun _ _ _ _ _ hparent => (by cases hparent)
  unfold removeTop
  split
  · exact hnil
  · rename_i last hlast
    split
    · exact hnil
    · rename_i hlength
      refine replaceTop_isHeap hgt h.dropLast (fun hdrop => hlength ?_) last
      have hlen := congrArg List.length hdrop
      rw [List.length_dropLast, List.length_nil] at hlen
      have hpos : elems.length ≠ 0 := by
        intro hzero
        rw [List.length_eq_zero_iff.mp hzero] at hlast
        cases hlast
      omega

theorem IsHeap.top_le (h : IsHeap key elems) {top : T} (htop : elems[0]? = some top) :
    ∀ elem ∈ elems, key top ≤ key elem := by
  have hpos : ∀ (i : ℕ) (elem : T), elems[i]? = some elem → key top ≤ key elem := by
    intro i
    induction i using Nat.strongRecOn with
    | ind i ih =>
      intro elem helem
      by_cases hi : i = 0
      · subst hi
        rw [htop] at helem
        cases helem
        exact le_refl _
      · have hlt := parentPos_lt hi
        obtain ⟨hilt, -⟩ := List.getElem?_eq_some_iff.mp helem
        have hparent : elems[parentPos i]? = some elems[parentPos i] :=
          List.getElem?_eq_getElem (by omega)
        exact (ih (parentPos i) hlt _ hparent).trans
          (h i _ elem hi trivial hparent helem)
  intro elem helem
  obtain ⟨i, hi⟩ := List.mem_iff_getElem?.mp helem
  exact hpos i elem hi

theorem IsHeap.congr {key' : T → K} (h : IsHeap key elems)
    (heq : ∀ elem ∈ elems, key' elem = key elem) : IsHeap key' elems := by
  intro i parent child hi _ hparent hchild
  rw [heq parent (List.mem_of_getElem? hparent), heq child (List.mem_of_getElem? hchild)]
  exact h i parent child hi trivial hparent hchild

theorem IsHeap.below_congr {key' : T → K} {top : T} {others : List T}
    (h : IsHeap key (top :: others)) (heq : ∀ elem ∈ others, key' elem = key elem) :
    IsHeapBelow key' (top :: others) := by
  have hmem : ∀ {i : ℕ} {elem : T}, i ≠ 0 → (top :: others)[i]? = some elem → elem ∈ others := by
    intro i elem hi helem
    obtain ⟨i, rfl⟩ := Nat.exists_eq_succ_of_ne_zero hi
    exact List.mem_of_getElem? helem
  intro i parent child hi hparentPos hparent hchild
  rw [heq parent (hmem hparentPos hparent), heq child (hmem hi hchild)]
  exact h i parent child hi trivial hparent hchild

end

end Babeltrace.PrioHeap
