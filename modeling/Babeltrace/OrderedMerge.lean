import Mathlib

/-!
# Insertion in lists ordered by time

`insertSorted` only looks at the first element which isn't earlier: it's a set insertion when the
times strictly increase and elements of one same time are the same.
-/
namespace Babeltrace.OrderedMerge

variable {α : Type*} (time : α → ℕ) (same : α → α → Bool)

def insertSorted (x : α) : List α → List α
  | [] => [x]
  | y :: ys =>
    if time x ≤ time y then if same x y then y :: ys else x :: y :: ys
    else y :: insertSorted x ys

/-- Inserts the elements of `src` one after the other. -/
def mergeInto (dest src : List α) : List α :=
  src.foldl (fun dest x => insertSorted time same x dest) dest

def Increasing (xs : List α) : Prop := xs.Pairwise fun x y => time x < time y

variable {time same} {x y : α} {xs dest src all : List α}

@[simp] theorem mergeInto_cons (dest : List α) (x : α) (src : List α) :
    mergeInto time same dest (x :: src) =
      mergeInto time same (insertSorted time same x dest) src := rfl

theorem mem_of_mem_insertSorted (h : y ∈ insertSorted time same x xs) : y = x ∨ y ∈ xs := by
  induction xs with
  | nil => exact .inl (List.mem_singleton.mp h)
  | cons z zs ih =>
    simp only [insertSorted] at h
    split at h
    · split at h
      · exact .inr h
      · exact List.mem_cons.mp h
    · rcases List.mem_cons.mp h with rfl | h
      · exact .inr List.mem_cons_self
      · exact (ih h).imp_right (List.mem_cons_of_mem z)

theorem sublist_insertSorted (x : α) (xs : List α) :
    xs.Sublist (insertSorted time same x xs) := by
  induction xs with
  | nil => exact List.nil_sublist _
  | cons y ys ih =>
    simp only [insertSorted]
    split
    · split
      · exact List.Sublist.refl _
      · exact List.sublist_cons_self x (y :: ys)
    · exact ih.cons_cons y

theorem sublist_mergeInto (dest src : List α) : dest.Sublist (mergeInto time same dest src) := by
  induction src generalizing dest with
  | nil => exact List.Sublist.refl _
  | cons x src ih => exact (sublist_insertSorted x dest).trans (ih _)

theorem mem_of_mem_mergeInto (h : y ∈ mergeInto time same dest src) : y ∈ dest ∨ y ∈ src := by
  induction src generalizing dest with
  | nil => exact .inl h
  | cons x src ih =>
    rcases ih h with h | h
    · rcases mem_of_mem_insertSorted h with rfl | h
      · exact .inr List.mem_cons_self
      · exact .inl h
    · exact .inr (List.mem_cons_of_mem x h)

theorem same_of_insertSorted_eq {pre post : List α}
    (h : insertSorted time same x (pre ++ y :: post) = pre ++ y :: post)
    (hpre : ∀ z ∈ pre, time z < time x) (hy : time x ≤ time y) : same x y = true := by
  induction pre with
  | nil =>
    rw [List.nil_append, insertSorted, if_pos hy] at h
    by_contra hne
    rw [if_neg hne] at h
    have := congrArg List.length h
    simp only [List.length_cons] at this
    omega
  | cons z pre ih =>
    obtain ⟨hz, hpre⟩ := List.forall_mem_cons.mp hpre
    rw [List.cons_append, insertSorted, if_neg (by omega)] at h
    exact ih (List.cons.inj h).2 hpre

theorem insertSorted_eq_of_mergeInto_eq (h : mergeInto time same dest src = dest) :
    ∀ x ∈ src, insertSorted time same x dest = dest := by
  induction src with
  | nil => exact List.forall_mem_nil _
  | cons x src ih =>
    have hx : insertSorted time same x dest = dest := by
      have hsub : (insertSorted time same x dest).Sublist dest := by
        conv_rhs => rw [← h]
        exact sublist_mergeInto _ src
      exact hsub.antisymm (sublist_insertSorted x dest)
    rw [mergeInto_cons, hx] at h
    exact List.forall_mem_cons.mpr ⟨hx, ih h⟩

/-! ## Elements of one same time are the same -/

section

variable (hxs : Increasing time xs) (hsame : ∀ y ∈ xs, time y = time x → same x y = true)

include hxs hsame

theorem insertSorted_eq_self (hx : ∃ y ∈ xs, time y = time x) :
    insertSorted time same x xs = xs := by
  induction xs with
  | nil =>
    obtain ⟨y, hy, -⟩ := hx
    exact absurd hy List.not_mem_nil
  | cons z zs ih =>
    obtain ⟨hz, hzs⟩ := List.pairwise_cons.mp hxs
    obtain ⟨hsz, hszs⟩ := List.forall_mem_cons.mp hsame
    obtain ⟨y, hy, hyx⟩ := hx
    rcases List.mem_cons.mp hy with rfl | hy
    · rw [insertSorted, if_pos (by omega), if_pos (hsz hyx)]
    · have hlt := hz y hy
      rw [insertSorted, if_neg (by omega), ih hzs hszs ⟨y, hy, hyx⟩]

theorem increasing_insertSorted : Increasing time (insertSorted time same x xs) := by
  induction xs with
  | nil => exact List.pairwise_singleton _ x
  | cons z zs ih =>
    obtain ⟨hz, hzs⟩ := List.pairwise_cons.mp hxs
    obtain ⟨hsz, hszs⟩ := List.forall_mem_cons.mp hsame
    simp only [insertSorted]
    split
    next hle =>
      split
      next => exact hxs
      next hne =>
        have hlt : time x < time z :=
          lt_of_le_of_ne hle fun heq => hne (hsz heq.symm)
        refine List.pairwise_cons.mpr ⟨?_, hxs⟩
        exact List.forall_mem_cons.mpr ⟨hlt, fun y hy => lt_trans hlt (hz y hy)⟩
    next hgt =>
      refine List.pairwise_cons.mpr ⟨fun y hy => ?_, ih hzs hszs⟩
      rcases mem_of_mem_insertSorted hy with rfl | hy
      · omega
      · exact hz y hy

end

theorem exists_time_insertSorted (hsame : ∀ y ∈ xs, same x y = true → time y = time x) :
    ∃ y ∈ insertSorted time same x xs, time y = time x := by
  induction xs with
  | nil => exact ⟨x, List.mem_singleton_self x, rfl⟩
  | cons z zs ih =>
    obtain ⟨hsz, hszs⟩ := List.forall_mem_cons.mp hsame
    simp only [insertSorted]
    split
    · split
      next h => exact ⟨z, List.mem_cons_self, hsz h⟩
      next => exact ⟨x, List.mem_cons_self, rfl⟩
    · obtain ⟨y, hy, hyx⟩ := ih hszs
      exact ⟨y, List.mem_cons_of_mem z hy, hyx⟩

def TimeIdentifies (time : α → ℕ) (same : α → α → Bool) (xs : List α) : Prop :=
  ∀ x ∈ xs, ∀ y ∈ xs, time x = time y ↔ same x y = true

theorem increasing_mergeInto (hall : TimeIdentifies time same all) (hdest : dest ⊆ all)
    (hsrc : src ⊆ all) (hinc : Increasing time dest) :
    Increasing time (mergeInto time same dest src) ∧
      ∀ x ∈ src, ∃ y ∈ mergeInto time same dest src, time y = time x := by
  induction src generalizing dest with
  | nil => exact ⟨hinc, List.forall_mem_nil _⟩
  | cons x src ih =>
    obtain ⟨hx, hsrc⟩ := List.cons_subset.mp hsrc
    have hinc' := increasing_insertSorted hinc fun y hy h => (hall x hx y (hdest hy)).mp h.symm
    have htime : ∃ y ∈ insertSorted time same x dest, time y = time x :=
      exists_time_insertSorted fun y hy h => ((hall x hx y (hdest hy)).mpr h).symm
    have hdest' : insertSorted time same x dest ⊆ all := by
      intro y hy
      rcases mem_of_mem_insertSorted hy with rfl | hy
      · exact hx
      · exact hdest hy
    obtain ⟨hmerge, htimes⟩ := ih hdest' hsrc hinc'
    refine ⟨hmerge, List.forall_mem_cons.mpr ⟨?_, htimes⟩⟩
    obtain ⟨y, hy, hyx⟩ := htime
    exact ⟨y, (sublist_mergeInto _ src).subset hy, hyx⟩

theorem mergeInto_eq_self (hall : TimeIdentifies time same all) (hdest : dest ⊆ all)
    (hsrc : src ⊆ all) (hinc : Increasing time dest)
    (htimes : ∀ x ∈ src, ∃ y ∈ dest, time y = time x) : mergeInto time same dest src = dest := by
  induction src with
  | nil => rfl
  | cons x src ih =>
    obtain ⟨hx, hsrc⟩ := List.cons_subset.mp hsrc
    obtain ⟨htime, htimes⟩ := List.forall_mem_cons.mp htimes
    rw [mergeInto_cons, insertSorted_eq_self hinc _ htime, ih hsrc htimes]
    exact fun y hy h => (hall x hx y (hdest hy)).mp h.symm

end Babeltrace.OrderedMerge
