import Mathlib
import Babeltrace.RelativePath

/-!
# Path normalization

`bt_common_normalize_path()` (`common.c`) resolves the parts of the path in place. The index is a
`size_t` which wraps below zero when the parts before it are removed. What it means is in
`Babeltrace.RelativePath`.
-/
namespace Babeltrace.NormalizePath

abbrev Part := List UInt8

/-- `G_DIR_SEPARATOR` -/
def sep : UInt8 := 47

def dot : Part := [46]

def dotDot : Part := [46, 46]

/-! ## Model -/

/-- The loop of `append_path_parts()`: `last` has the bytes since the last separator. -/
def appendPathPartsFrom (parts : List Part) (last : Part) : List UInt8 → List Part
  | [] => if 0 < last.length then parts ++ [last] else parts
  | ch :: path =>
    if ch = sep then
      appendPathPartsFrom (if 0 < last.length then parts ++ [last] else parts) [] path
    else appendPathPartsFrom parts (last ++ [ch]) path

def appendPathParts (path : List UInt8) (parts : List Part) : List Part :=
  appendPathPartsFrom parts [] path

/-- `some none` goes to the `error` label, and `none` means that `fuel` iterations are not enough.
-/
def resolveLoop : ℕ → UInt64 → List Part → Option (Option (List Part))
  | 0, _, _ => none
  | fuel + 1, i, parts =>
    match parts[i.toNat]? with
    | none => some (some parts)
    | some part =>
      if part = dotDot then
        if i = 0 then some none
        else resolveLoop fuel (i - 2 + 1)
          ((parts.eraseIdx (i - 1).toNat).eraseIdx (i - 1).toNat)
      else if part = dot then resolveLoop fuel (i - 1 + 1) (parts.eraseIdx i.toNat)
      else resolveLoop fuel (i + 1) parts

/-- The loop which creates the normalized path -/
def joinParts (parts : List Part) : List UInt8 :=
  sep :: (parts.mapIdx fun i part =>
    part ++ if i < parts.length - 1 then [sep] else []).flatten

def initialParts (path wd : List UInt8) : List Part :=
  appendPathParts path (if path.head? ≠ some sep then appendPathParts wd [] else [])

/-- `some none` is a null result, and `none` means that it doesn't terminate. -/
def normalizePath (path wd : List UInt8) : Option (Option (List UInt8)) :=
  (resolveLoop ((initialParts path wd).length + 1) 0 (initialParts path wd)).map
    (Option.map joinParts)

/-! ## Parts -/

/-- What's between the separators, unless there's nothing -/
def pathParts (path : List UInt8) : List Part := (path.splitOn sep).filter (0 < ·.length)

theorem splitOn_sep_cons (path : List UInt8) : (sep :: path).splitOn sep = [] :: path.splitOn sep := by
  simp [List.splitOn, List.splitOnP_cons_eq_if_modifyHead]

theorem splitOn_cons_of_ne {ch : UInt8} (h : ch ≠ sep) (path : List UInt8) :
    (ch :: path).splitOn sep = (path.splitOn sep).modifyHead (ch :: ·) := by
  simp [List.splitOn, List.splitOnP_cons_eq_if_modifyHead, h]

theorem appendPathPartsFrom_eq (parts : List Part) (last : Part) (path : List UInt8) :
    appendPathPartsFrom parts last path =
      parts ++ ((path.splitOn sep).modifyHead (last ++ ·)).filter (0 < ·.length) := by
  induction path generalizing parts last with
  | nil =>
    by_cases hlast : 0 < last.length <;> simp [appendPathPartsFrom, hlast]
  | cons ch path ih =>
    obtain ⟨head, others, hsplit⟩ := List.exists_cons_of_ne_nil (List.splitOn_ne_nil sep path)
    by_cases hch : ch = sep
    · subst hch
      by_cases hlast : 0 < last.length <;>
        simp [appendPathPartsFrom, ih, hsplit, hlast, splitOn_sep_cons]
    · simp [appendPathPartsFrom, hch, ih, hsplit, splitOn_cons_of_ne hch]

theorem appendPathParts_eq (path : List UInt8) (parts : List Part) :
    appendPathParts path parts = parts ++ pathParts path := by
  obtain ⟨head, others, hsplit⟩ := List.exists_cons_of_ne_nil (List.splitOn_ne_nil sep path)
  simp [appendPathParts, appendPathPartsFrom_eq, pathParts, hsplit]

theorem initialParts_eq (path wd : List UInt8) :
    initialParts path wd =
      (if path.head? ≠ some sep then pathParts wd else []) ++ pathParts path := by
  rw [initialParts, appendPathParts_eq, appendPathParts_eq, List.nil_append]

theorem pathParts_sep_cons (path : List UInt8) : pathParts (sep :: path) = pathParts path := by
  rw [pathParts, pathParts, splitOn_sep_cons, List.filter_cons_of_neg (by simp)]

theorem length_pathParts_le (path : List UInt8) : (pathParts path).length ≤ path.length := by
  induction path with
  | nil => simp [pathParts]
  | cons ch path ih =>
    by_cases hch : ch = sep
    · subst hch
      rw [pathParts_sep_cons]
      exact Nat.le_succ_of_le ih
    · obtain ⟨head, others, hsplit⟩ := List.exists_cons_of_ne_nil (List.splitOn_ne_nil sep path)
      rw [pathParts, hsplit, List.filter_cons] at ih
      rw [pathParts, splitOn_cons_of_ne hch, hsplit, List.modifyHead_cons,
        List.filter_cons_of_pos (by simp), List.length_cons, List.length_cons]
      split at ih
      · rw [List.length_cons] at ih
        omega
      · omega

theorem sep_notMem_of_mem_splitOn {path part : List UInt8} (h : part ∈ path.splitOn sep) :
    sep ∉ part := by
  induction path generalizing part with
  | nil =>
    rw [List.splitOn_nil, List.mem_singleton] at h
    simp [h]
  | cons ch path ih =>
    by_cases hch : ch = sep
    · subst hch
      rw [splitOn_sep_cons, List.mem_cons] at h
      rcases h with rfl | h
      · simp
      · exact ih h
    · obtain ⟨head, others, hsplit⟩ := List.exists_cons_of_ne_nil (List.splitOn_ne_nil sep path)
      rw [hsplit] at ih
      rw [splitOn_cons_of_ne hch, hsplit, List.modifyHead_cons, List.mem_cons] at h
      rcases h with rfl | h
      · rw [List.mem_cons, not_or]
        exact ⟨Ne.symm hch, ih List.mem_cons_self⟩
      · exact ih (List.mem_cons_of_mem _ h)

/-! ## Resolution -/

/-- What a part is for the resolution: `.` is nothing. -/
def item (part : Part) : Option (Option Part) :=
  if part = dotDot then some none else if part = dot then none else some (some part)

def items (parts : List Part) : List (Option Part) := parts.filterMap item

theorem items_cons (part : Part) (parts : List Part) :
    items (part :: parts) = (item part).toList ++ items parts := by
  unfold items
  cases h : item part <;> simp [h]

theorem toNat_index {n : ℕ} (h : n < 2 ^ 64) : (UInt64.ofNat n).toNat = n :=
  UInt64.toNat_ofNat_of_lt' h

theorem eraseIdx_scanned (stack parts : List Part) (part : Part) :
    (stack ++ part :: parts).eraseIdx stack.length = stack ++ parts := by
  rw [List.eraseIdx_append_of_length_le (Nat.le_refl _), Nat.sub_self, List.eraseIdx_cons_zero]

theorem resolveLoop_eq (stack parts : List Part) (h : stack.length + parts.length < 2 ^ 64) :
    resolveLoop (parts.length + 1) (UInt64.ofNat stack.length) (stack ++ parts) =
      some (RelativePath.resolve stack (items parts)) := by
  induction parts generalizing stack with
  | nil =>
    have hi : (UInt64.ofNat stack.length).toNat = stack.length := toNat_index h
    rw [resolveLoop, hi, List.append_nil, List.getElem?_eq_none (Nat.le_refl _)]
    rfl
  | cons part parts ih =>
    rw [List.length_cons] at h
    have hi : (UInt64.ofNat stack.length).toNat = stack.length := toNat_index (by omega)
    have hpart : (stack ++ part :: parts)[stack.length]? = some part := by simp
    rw [List.length_cons, resolveLoop, hi, hpart, items_cons]
    simp only [item]
    split_ifs with hdotDot hzero hdot
    · -- nothing is before `..`
      rw [hzero] at hi
      obtain rfl := List.eq_nil_of_length_eq_zero hi.symm
      rfl
    · -- `..` removes itself and the last part of the stack: the index wraps if it's the only one
      rcases List.eq_nil_or_concat' stack with rfl | ⟨stack, last, rfl⟩
      · exact absurd rfl hzero
      · rw [List.length_append, List.length_singleton] at h ⊢
        have hprev : UInt64.ofNat (stack.length + 1) - 1 = UInt64.ofNat stack.length := by
          rw [UInt64.ofNat_add]
          grind
        have hnext : UInt64.ofNat (stack.length + 1) - 2 + 1 = UInt64.ofNat stack.length := by
          rw [UInt64.ofNat_add]
          grind
        rw [hprev, hnext, toNat_index (by omega), List.append_assoc, List.singleton_append,
          eraseIdx_scanned, eraseIdx_scanned, ih stack (by omega)]
        simp [RelativePath.resolve_cons, RelativePath.step]
    · -- `.` removes itself: the index wraps if it's the first part
      rw [UInt64.sub_add_cancel, eraseIdx_scanned, ih stack (by omega)]
      rfl
    · have hnext : UInt64.ofNat stack.length + 1 = UInt64.ofNat (stack ++ [part]).length := by
        rw [List.length_append, UInt64.ofNat_add]
        rfl
      have hmove : stack ++ part :: parts = stack ++ [part] ++ parts := by simp
      rw [hnext, hmove, ih (stack ++ [part]) (by simp; omega)]
      rfl

/-! ## Normalized paths -/

theorem joinParts_eq (parts : List Part) : joinParts parts = sep :: [sep].intercalate parts := by
  unfold joinParts
  congr 1
  induction parts with
  | nil => rfl
  | cons part parts ih =>
    cases parts with
    | nil => simp
    | cons part' parts =>
      have hlt : ∀ i, i + 1 < (part' :: parts).length ↔ i < (part' :: parts).length - 1 := by
        intro i
        rw [List.length_cons]
        omega
      rw [List.intercalate_cons_cons, ← ih, List.mapIdx_cons, List.flatten_cons, List.length_cons,
        Nat.add_sub_cancel]
      simp only [hlt]
      simp

/-- A part which the resolution keeps -/
def Plain (part : Part) : Prop := part ≠ [] ∧ part ≠ dot ∧ part ≠ dotDot ∧ sep ∉ part

theorem items_of_plain {parts : List Part} (h : ∀ part ∈ parts, Plain part) :
    items parts = parts.map some := by
  rw [items, ← List.filterMap_eq_map]
  refine List.filterMap_congr fun part hpart => ?_
  obtain ⟨-, hdot, hdotDot, -⟩ := h part hpart
  simp [item, hdot, hdotDot]

theorem pathParts_joinParts {parts : List Part} (h : ∀ part ∈ parts, Plain part) :
    pathParts (joinParts parts) = parts := by
  rw [joinParts_eq, pathParts_sep_cons, pathParts]
  by_cases hparts : parts = []
  · subst hparts
    rfl
  · rw [List.splitOn_intercalate sep (fun part hpart => (h part hpart).2.2.2) hparts,
      List.filter_eq_self]
    intro part hpart
    rw [decide_eq_true_eq, List.length_pos_iff]
    exact (h part hpart).1

theorem plain_of_mem_items {parts : List Part} {path wd : List UInt8}
    (hparts : parts ⊆ pathParts wd ++ pathParts path) {part : Part} (h : some part ∈ items parts) :
    Plain part := by
  obtain ⟨part', hpart', hitem⟩ := List.mem_filterMap.mp h
  unfold item at hitem
  split_ifs at hitem with hdotDot hdot
  · simp at hitem
  obtain rfl : part' = part := by simpa using hitem
  have hmem : ∀ path : List UInt8, part' ∈ pathParts path → part' ≠ [] ∧ sep ∉ part' := by
    intro path hmem
    obtain ⟨hsplit, hlength⟩ := List.mem_filter.mp hmem
    exact ⟨List.length_pos_iff.mp (of_decide_eq_true hlength), sep_notMem_of_mem_splitOn hsplit⟩
  obtain ⟨hne, hsep⟩ := (List.mem_append.mp (hparts hpart')).elim (hmem wd) (hmem path)
  exact ⟨hne, hdot, hdotDot, hsep⟩

theorem normalizePath_eq (path wd : List UInt8) (h : (initialParts path wd).length < 2 ^ 64) :
    normalizePath path wd =
      some ((RelativePath.resolve [] (items (initialParts path wd))).map joinParts) := by
  have hloop : resolveLoop ((initialParts path wd).length + 1) 0 (initialParts path wd) =
      some (RelativePath.resolve [] (items (initialParts path wd))) :=
    resolveLoop_eq [] (initialParts path wd) (by simpa using h)
  rw [normalizePath, hloop, Option.map_some]

theorem initialParts_subset (path wd : List UInt8) :
    initialParts path wd ⊆ pathParts wd ++ pathParts path := by
  rw [initialParts_eq]
  split
  · exact List.Subset.refl _
  · exact List.subset_append_right _ _

theorem initialParts_length_le (path wd : List UInt8) :
    (initialParts path wd).length ≤ path.length + wd.length := by
  have hpath := length_pathParts_le path
  have hwd := length_pathParts_le wd
  rw [initialParts_eq, List.length_append]
  split
  · omega
  · rw [List.length_nil]
    omega

/-- The normalization terminates, and it fails exactly when the parts climb above the root;
otherwise, its result has the parts of the path which they lead to, and it's its own normalization.
-/
theorem normalizePath_spec (path wd : List UInt8) (hmem : path.length + wd.length < 2 ^ 64) :
    normalizePath path wd =
        some ((RelativePath.resolve [] (items
          ((if path.head? ≠ some sep then pathParts wd else []) ++
            pathParts path))).map fun parts => sep :: [sep].intercalate parts) ∧
      ∀ norm, normalizePath path wd = some (some norm) →
        (∃ parts, norm = sep :: [sep].intercalate parts ∧
          ∀ part ∈ parts, part ≠ [] ∧ part ≠ dot ∧ part ≠ dotDot ∧ sep ∉ part) ∧
        ∀ wd', normalizePath norm wd' = some (some norm) := by
  have hlength := initialParts_length_le path wd
  have heq := normalizePath_eq path wd (by omega)
  have hjoin : joinParts = fun parts => sep :: [sep].intercalate parts := funext joinParts_eq
  refine ⟨by rw [heq, initialParts_eq, hjoin], fun norm hnorm => ?_⟩
  rw [heq, Option.some_inj] at hnorm
  obtain ⟨parts, hresolve, rfl⟩ := Option.map_eq_some_iff.mp hnorm
  have hplain : ∀ part ∈ parts, Plain part := by
    intro part hpart
    refine plain_of_mem_items (initialParts_subset path wd) ?_
    exact (RelativePath.mem_of_resolve hresolve hpart).resolve_left List.not_mem_nil
  refine ⟨⟨parts, joinParts_eq parts, hplain⟩, fun wd' => ?_⟩
  have hinitial : initialParts (joinParts parts) wd' = parts := by
    rw [initialParts_eq, pathParts_joinParts hplain, joinParts_eq]
    simp
  have hle : parts.length < 2 ^ 64 := by
    have hresolved := RelativePath.length_le_of_resolve hresolve
    have hitems : (items (initialParts path wd)).length ≤ _ := List.length_filterMap_le _ _
    rw [List.length_nil] at hresolved
    omega
  rw [normalizePath_eq _ wd' (by rwa [hinitial]), hinitial, items_of_plain hplain,
    RelativePath.resolve_names, List.nil_append, Option.map_some]

/-- `./../a` from `/b`: the index wraps twice. -/
theorem normalizePath_spec_wrapping :
    normalizePath [46, 47, 46, 46, 47, 97] [47, 98] = some (some [47, 97]) ∧
      ∀ wd, normalizePath [47, 97] wd = some (some [47, 97]) := by
  have hnorm : normalizePath [46, 47, 46, 46, 47, 97] [47, 98] = some (some [47, 97]) := by decide
  exact ⟨hnorm, ((normalizePath_spec _ _ (by decide)).2 _ hnorm).2⟩

end Babeltrace.NormalizePath
