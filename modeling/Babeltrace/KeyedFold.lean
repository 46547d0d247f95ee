import Mathlib

/-!
# Folds which keep one state per key

Each element of a list updates the state of its own key, if any. The fold succeeds exactly when, for
each key, the fold of the elements of this key does.
-/
namespace Babeltrace.KeyedFold

variable {K S A : Type} [DecidableEq K] (key : A → Option K) (step : K → S → A → Option S)

def keyedStep (states : K → S) (a : A) : Option (K → S) :=
  match key a with
  | none => some states
  | some k => (step k (states k) a).map (Function.update states k)

def ofKey (k : K) (as : List A) : List A := as.filter fun a => key a = some k

variable {key step}

theorem ofKey_cons_self {k : K} {a : A} (h : key a = some k) (as : List A) :
    ofKey key k (a :: as) = a :: ofKey key k as :=
  List.filter_cons_of_pos (by simpa using h)

theorem ofKey_cons_ne {k : K} {a : A} (h : key a ≠ some k) (as : List A) :
    ofKey key k (a :: as) = ofKey key k as :=
  List.filter_cons_of_neg (by simpa using h)

@[simp] theorem ofKey_nil (k : K) : ofKey key k [] = [] := rfl

@[simp] theorem ofKey_append (k : K) (as bs : List A) :
    ofKey key k (as ++ bs) = ofKey key k as ++ ofKey key k bs := List.filter_append ..

theorem mem_ofKey {k : K} {a : A} {as : List A} :
    a ∈ ofKey key k as ↔ a ∈ as ∧ key a = some k := by
  simp [ofKey, List.mem_filter]

theorem ofKey_flatMap {ks : List K} {f : K → List A} (hnodup : ks.Nodup)
    (hf : ∀ k ∈ ks, ∀ a ∈ f k, key a = some k) (k : K) :
    ofKey key k (ks.flatMap f) = if k ∈ ks then f k else [] := by
  induction ks with
  | nil => rfl
  | cons k' ks ih =>
    obtain ⟨hf', hrest⟩ := List.forall_mem_cons.mp hf
    obtain ⟨hne, hnodup⟩ := List.nodup_cons.mp hnodup
    rw [List.flatMap_cons, ofKey_append, ih hnodup hrest]
    by_cases heq : k = k'
    · subst heq
      have hself : ofKey key k (f k) = f k :=
        List.filter_eq_self.mpr fun a ha => by simp [hf' a ha]
      simp [hself, hne]
    · have hnil : ofKey key k (f k') = [] := by
        refine List.filter_eq_nil_iff.mpr fun a ha => ?_
        rw [hf' a ha]
        simpa using Ne.symm heq
      simp [hnil, heq]

theorem foldlM_keyedStep (as : List A) (states states' : K → S) :
    as.foldlM (keyedStep key step) states = some states' ↔
      ∀ k, (ofKey key k as).foldlM (step k) (states k) = some (states' k) := by
  induction as generalizing states with
  | nil =>
    simp only [List.foldlM_nil, ofKey_nil, Option.pure_def, Option.some.injEq]
    exact funext_iff
  | cons a as ih =>
    cases hk : key a with
    | none =>
      have hstep : keyedStep key step states a = some states := by simp only [keyedStep, hk]
      rw [List.foldlM_cons, hstep, Option.bind_eq_bind, Option.bind_some, ih]
      refine forall_congr' fun k => ?_
      rw [ofKey_cons_ne (by rw [hk]; exact Option.some_ne_none k |>.symm)]
    | some k =>
      have hstep : keyedStep key step states a =
          (step k (states k) a).map (Function.update states k) := by simp only [keyedStep, hk]
      rw [List.foldlM_cons, hstep, Option.bind_eq_bind]
      cases hs : step k (states k) a with
      | none =>
        refine iff_of_false (by simp) fun h => ?_
        have := h k
        rw [ofKey_cons_self hk, List.foldlM_cons, hs] at this
        cases this
      | some s =>
        rw [Option.map_some, Option.bind_some, ih]
        refine forall_congr' fun k' => ?_
        by_cases h : k' = k
        · subst h
          rw [ofKey_cons_self hk, List.foldlM_cons, hs, Function.update_self]
          rfl
        · rw [ofKey_cons_ne (by rw [hk]; simpa using Ne.symm h), Function.update_of_ne h]

theorem exists_foldlM_keyedStep (as : List A) (states : K → S) (P : K → S → Prop) :
    (∃ states', as.foldlM (keyedStep key step) states = some states' ∧ ∀ k, P k (states' k)) ↔
      ∀ k, ∃ s, (ofKey key k as).foldlM (step k) (states k) = some s ∧ P k s := by
  constructor
  · rintro ⟨states', h, hP⟩ k
    exact ⟨states' k, (foldlM_keyedStep as states states').mp h k, hP k⟩
  · intro h
    choose states' hstates hP using h
    exact ⟨states', (foldlM_keyedStep as states states').mpr hstates, hP⟩

end Babeltrace.KeyedFold
