import Mathlib

/-!
# Equality of values

The values of the library (`value.c`), without real values, and `bt_value_is_equal()`. The
comparison of two map values aborts when it gets to a key which the second one doesn't have.
-/
namespace Babeltrace.Values

/-- `bt_value_type`, without real values -/
inductive ValueType
  | null
  | bool
  | unsignedInteger
  | signedInteger
  | string
  | array
  | map
  deriving DecidableEq, Repr

/-- The entries of a map value are in the order in which one iterates its hash table. -/
inductive Value
  | null
  | bool (value : Int32)
  | unsignedInteger (value : UInt64)
  | signedInteger (value : Int64)
  | string (str : List UInt8)
  | array (elems : List Value)
  | map (entries : List (List UInt8 × Value))

namespace Value

def type : Value → ValueType
  | .null => .null
  | .bool _ => .bool
  | .unsignedInteger _ => .unsignedInteger
  | .signedInteger _ => .signedInteger
  | .string _ => .string
  | .array _ => .array
  | .map _ => .map

mutual

/-- No result is a null pointer which is dereferenced. -/
def isEqual : Value → Value → Option Bool
  | .null, .null => some true
  | .bool a, .bool b => some (a == b)
  | .unsignedInteger a, .unsignedInteger b => some (a == b)
  | .signedInteger a, .signedInteger b => some (a.toUInt64 == b.toUInt64)
  | .string a, .string b => some (a == b)
  | .array elemsA, .array elemsB =>
    if elemsA.length ≠ elemsB.length then some false else arrayIsEqual elemsA elemsB
  | .map entriesA, .map entriesB =>
    if entriesA.length ≠ entriesB.length then some false else mapIsEqual entriesA entriesB
  | _, _ => some false

/-- The loop of `bt_value_array_is_equal()` -/
def arrayIsEqual : List Value → List Value → Option Bool
  | a :: elemsA, b :: elemsB => do
    if ← isEqual a b then arrayIsEqual elemsA elemsB else some false
  | _, _ => some true

/-- The loop of `bt_value_map_is_equal()` -/
def mapIsEqual : List (List UInt8 × Value) → List (List UInt8 × Value) → Option Bool
  | [], _ => some true
  | (key, a) :: entriesA, entriesB => do
    match entriesB.lookup key with
    | none => none
    | some b => if ← isEqual a b then mapIsEqual entriesA entriesB else some false

end

/-- The order of the entries of the map values doesn't count. -/
@[mk_iff] inductive Same : Value → Value → Prop
  | null : Same .null .null
  | bool (value : Int32) : Same (.bool value) (.bool value)
  | unsignedInteger (value : UInt64) : Same (.unsignedInteger value) (.unsignedInteger value)
  | signedInteger (value : Int64) : Same (.signedInteger value) (.signedInteger value)
  | string (str : List UInt8) : Same (.string str) (.string str)
  | array {elemsA elemsB : List Value} (h : List.Forall₂ Same elemsA elemsB) :
    Same (.array elemsA) (.array elemsB)
  | map {entriesA entriesB : List (List UInt8 × Value)}
    (h : ∀ key, Option.Rel Same (entriesA.lookup key) (entriesB.lookup key)) :
    Same (.map entriesA) (.map entriesB)

/-- The keys of each map value within a value are distinct. -/
inductive Valid : Value → Prop
  | null : Valid .null
  | bool (value : Int32) : Valid (.bool value)
  | unsignedInteger (value : UInt64) : Valid (.unsignedInteger value)
  | signedInteger (value : Int64) : Valid (.signedInteger value)
  | string (str : List UInt8) : Valid (.string str)
  | array {elems : List Value} (h : ∀ elem ∈ elems, Valid elem) : Valid (.array elems)
  | map {entries : List (List UInt8 × Value)} (hkeys : (entries.map Prod.fst).Nodup)
    (h : ∀ entry ∈ entries, Valid entry.2) : Valid (.map entries)

mutual

/-- The comparison never gets to a key of the first value which the second one doesn't have. -/
def Comparable : Value → Value → Prop
  | .array elemsA, .array elemsB =>
    elemsA.length = elemsB.length → ElemsComparable elemsA elemsB
  | .map entriesA, .map entriesB =>
    entriesA.length = entriesB.length → EntriesComparable entriesA entriesB
  | _, _ => True

def ElemsComparable : List Value → List Value → Prop
  | a :: elemsA, b :: elemsB => Comparable a b ∧ (Same a b → ElemsComparable elemsA elemsB)
  | _, _ => True

def EntriesComparable : List (List UInt8 × Value) → List (List UInt8 × Value) → Prop
  | [], _ => True
  | (key, a) :: entriesA, entriesB =>
    match entriesB.lookup key with
    | none => False
    | some b => Comparable a b ∧ (Same a b → EntriesComparable entriesA entriesB)

end

@[elab_as_elim]
theorem ind {P : Value → Prop} (null : P .null) (bool : ∀ value, P (.bool value))
    (unsignedInteger : ∀ value, P (.unsignedInteger value))
    (signedInteger : ∀ value, P (.signedInteger value)) (string : ∀ str, P (.string str))
    (array : ∀ elems, (∀ elem ∈ elems, P elem) → P (.array elems))
    (map : ∀ entries : List (List UInt8 × Value), (∀ entry ∈ entries, P entry.2) → P (.map entries))
    (v : Value) : P v :=
  @Value.rec P (fun elems => ∀ elem ∈ elems, P elem) (fun entries => ∀ entry ∈ entries, P entry.2)
    (fun entry => P entry.2) null bool unsignedInteger signedInteger string array map
    (fun _ h => (by cases h)) (fun _ _ h hs => List.forall_mem_cons.mpr ⟨h, hs⟩)
    (fun _ h => (by cases h)) (fun _ _ h hs => List.forall_mem_cons.mpr ⟨h, hs⟩)
    (fun _ _ h => h) v

end Value

/-! ## Entries with distinct keys -/

section

variable {α : Type} {R : α → α → Prop} {x y z : Option α}

theorem rel_exists_iff (h : Option.Rel R x y) : (∃ a, x = some a) ↔ ∃ b, y = some b := by
  cases h <;> simp

theorem rel_symm (h : Option.Rel R x y) (hR : ∀ a ∈ x, ∀ b, R a b → R b a) :
    Option.Rel R y x := by
  cases h with
  | some hab => exact .some (hR _ rfl _ hab)
  | none => exact .none

theorem rel_trans (h : Option.Rel R x y) (h' : Option.Rel R y z)
    (hR : ∀ a ∈ x, ∀ b c, R a b → R b c → R a c) : Option.Rel R x z := by
  cases h with
  | none => exact h'
  | some hab =>
    cases h' with
    | some hbc => exact .some (hR _ rfl _ _ hab hbc)

variable {κ : Type} [BEq κ] [LawfulBEq κ] {entries entriesA entriesB : List (κ × α)} {key : κ} {a : α}

theorem mem_of_lookup (h : entries.lookup key = some a) : (key, a) ∈ entries := by
  obtain ⟨before, after, rfl, -⟩ := List.lookup_eq_some_iff.mp h
  simp

theorem mem_keys_iff : key ∈ entries.map Prod.fst ↔ ∃ a, entries.lookup key = some a := by
  rw [← Option.isSome_iff_exists, List.lookup_isSome_iff, List.mem_map]
  simp only [beq_iff_eq, eq_comm (a := key)]

theorem lookup_of_mem (hkeys : (entries.map Prod.fst).Nodup) (h : (key, a) ∈ entries) :
    entries.lookup key = some a := by
  induction entries with
  | nil => cases h
  | cons entry entries ih =>
    rw [List.map_cons, List.nodup_cons] at hkeys
    rcases List.mem_cons.mp h with rfl | h
    · rw [List.lookup_cons_self]
    · have hne : key ≠ entry.1 := by
        rintro rfl
        exact hkeys.1 (List.mem_map.mpr ⟨_, h, rfl⟩)
      rw [List.lookup_cons, beq_eq_false_iff_ne.mpr hne]
      exact ih hkeys.2 h

theorem length_eq_of_rel (hkeysA : (entriesA.map Prod.fst).Nodup)
    (hkeysB : (entriesB.map Prod.fst).Nodup)
    (h : ∀ key, Option.Rel R (entriesA.lookup key) (entriesB.lookup key)) :
    entriesA.length = entriesB.length := by
  have hperm : (entriesA.map Prod.fst).Perm (entriesB.map Prod.fst) := by
    refine (List.perm_ext_iff_of_nodup hkeysA hkeysB).mpr fun key => ?_
    rw [mem_keys_iff, mem_keys_iff]
    exact rel_exists_iff (h key)
  simpa using hperm.length_eq

theorem forall_rel_iff (hkeysA : (entriesA.map Prod.fst).Nodup)
    (hlength : entriesA.length = entriesB.length) :
    (∀ entry ∈ entriesA, ∃ b, entriesB.lookup entry.1 = some b ∧ R entry.2 b) ↔
      ∀ key, Option.Rel R (entriesA.lookup key) (entriesB.lookup key) := by
  constructor
  · intro h key
    have hsubset : entriesA.map Prod.fst ⊆ entriesB.map Prod.fst := by
      intro key hkey
      obtain ⟨entry, hentry, rfl⟩ := List.mem_map.mp hkey
      obtain ⟨b, hb, -⟩ := h entry hentry
      exact mem_keys_iff.mpr ⟨b, hb⟩
    have hperm : (entriesA.map Prod.fst).Perm (entriesB.map Prod.fst) :=
      (List.subperm_of_subset hkeysA hsubset).perm_of_length_le (by simp [hlength])
    cases ha : entriesA.lookup key with
    | some a =>
      obtain ⟨b, hb, hab⟩ := h _ (mem_of_lookup ha)
      rw [hb]
      exact .some hab
    | none =>
      cases hb : entriesB.lookup key with
      | some b =>
        obtain ⟨a, ha'⟩ := mem_keys_iff.mp (hperm.mem_iff.mpr (mem_keys_iff.mpr ⟨b, hb⟩))
        rw [ha] at ha'
        cases ha'
      | none => exact .none
  · rintro h ⟨key, a⟩ hentry
    have hkey := h key
    rw [lookup_of_mem hkeysA hentry] at hkey
    generalize entriesB.lookup key = b at hkey
    cases hkey with
    | some hab => exact ⟨_, rfl, hab⟩

end

namespace Value

/-! ## The same contents: an equivalence relation -/

section

variable {elemsA elemsB : List Value} {entriesA entriesB : List (List UInt8 × Value)}

end

theorem same_refl (v : Value) : Same v v := by
  induction v using ind with
  | null => exact .null
  | bool value => exact .bool value
  | unsignedInteger value => exact .unsignedInteger value
  | signedInteger value => exact .signedInteger value
  | string str => exact .string str
  | array elems ih => exact .array (List.forall₂_same.mpr ih)
  | map entries ih =>
    refine .map fun key => ?_
    cases ha : entries.lookup key with
    | none => exact .none
    | some a => exact .some (ih _ (mem_of_lookup ha))

theorem Same.symm {v w : Value} (h : Same v w) : Same w v := by
  induction v using ind generalizing w with
  | null | bool | unsignedInteger | signedInteger | string =>
    cases h
    exact same_refl _
  | array elems ih =>
    cases h with
    | array h =>
      refine .array ?_
      induction h with
      | nil => exact .nil
      | cons hab _ ihElems =>
        obtain ⟨ih, ihs⟩ := List.forall_mem_cons.mp ih
        exact .cons (ih hab) (ihElems ihs)
  | map entries ih =>
    cases h with
    | map h =>
      refine .map fun key => ?_
      exact rel_symm (h key) fun a ha b hab => ih _ (mem_of_lookup ha) hab

theorem Same.trans {u v w : Value} (h : Same u v) (h' : Same v w) : Same u w := by
  induction u using ind generalizing v w with
  | null | bool | unsignedInteger | signedInteger | string =>
    cases h
    exact h'
  | array elems ih =>
    cases h with
    | array h =>
      cases h' with
      | @array _ elems' h' =>
        refine .array ?_
        induction h generalizing elems' with
        | nil => exact h'
        | cons hab _ ihElems =>
          cases h' with
          | cons hbc h' =>
            obtain ⟨ih, ihs⟩ := List.forall_mem_cons.mp ih
            exact .cons (ih hab hbc) (ihElems ihs h')
  | map entries ih =>
    cases h with
    | map h =>
      cases h' with
      | map h' =>
        refine .map fun key => ?_
        exact rel_trans (h key) (h' key) fun a ha b c hab hbc => ih _ (mem_of_lookup ha) hab hbc

/-! ## What the comparison decides -/

def Decides (P Q : Prop) (r : Option Bool) : Prop :=
  (P ∧ ∃ ret, r = some ret ∧ (ret = true ↔ Q)) ∨ (¬P ∧ r = none)

theorem Decides.of_iff {P Q : Prop} {ret : Bool} (hP : P) (h : ret = true ↔ Q) :
    Decides P Q (some ret) :=
  .inl ⟨hP, ret, rfl, h⟩

theorem Decides.congr {P Q Q' : Prop} {r : Option Bool} (h : Decides P Q r) (hQ : Q ↔ Q') :
    Decides P Q' r := by
  rwa [← hQ]

theorem Decides.and {P P' Q Q' : Prop} {r r' : Option Bool} (h : Decides P Q r)
    (h' : Q → Decides P' Q' r') :
    Decides (P ∧ (Q → P')) (Q ∧ Q') (do if ← r then r' else some false) := by
  rcases h with ⟨hP, ret, rfl, hret⟩ | ⟨hP, rfl⟩
  · cases ret with
    | false =>
      have hQ : ¬Q := fun hQ => Bool.false_ne_true (hret.mpr hQ)
      exact .of_iff ⟨hP, fun hQ' => absurd hQ' hQ⟩ (by simp [hQ])
    | true =>
      have hQ : Q := hret.mp rfl
      rcases h' hQ with ⟨hP', ret', hr', hret'⟩ | ⟨hP', hr'⟩
      · exact .inl ⟨⟨hP, fun _ => hP'⟩, ret', hr', by simp [hQ, hret']⟩
      · exact .inr ⟨fun hall => hP' (hall.2 hQ), hr'⟩
  · exact .inr ⟨fun hall => hP hall.1, rfl⟩

section

variable {elemsA elemsB : List Value} {entriesA entriesB : List (List UInt8 × Value)}

theorem arrayIsEqual_decides (hlength : elemsA.length = elemsB.length)
    (hB : ∀ elem ∈ elemsB, Valid elem)
    (h : ∀ a ∈ elemsA, ∀ b, Valid b → Decides (Comparable a b) (Same a b) (isEqual a b)) :
    Decides (ElemsComparable elemsA elemsB) (List.Forall₂ Same elemsA elemsB)
      (arrayIsEqual elemsA elemsB) := by
  induction elemsA generalizing elemsB with
  | nil =>
    rw [List.length_nil, eq_comm, List.length_eq_zero_iff] at hlength
    subst hlength
    exact .of_iff (by simp [ElemsComparable]) (by simp)
  | cons a elemsA ih =>
    cases elemsB with
    | nil => cases hlength
    | cons b elemsB =>
      obtain ⟨ha, hA⟩ := List.forall_mem_cons.mp h
      obtain ⟨hb, hB⟩ := List.forall_mem_cons.mp hB
      rw [ElemsComparable, arrayIsEqual]
      refine ((ha b hb).and fun _ => ih (Nat.succ.inj hlength) hB hA).congr ?_
      rw [List.forall₂_cons]

theorem mapIsEqual_decides (hB : ∀ entry ∈ entriesB, Valid entry.2)
    (h : ∀ entry ∈ entriesA, ∀ b, Valid b →
      Decides (Comparable entry.2 b) (Same entry.2 b) (isEqual entry.2 b)) :
    Decides (EntriesComparable entriesA entriesB)
      (∀ entry ∈ entriesA, ∃ b, entriesB.lookup entry.1 = some b ∧ Same entry.2 b)
      (mapIsEqual entriesA entriesB) := by
  induction entriesA with
  | nil => exact .of_iff (by simp [EntriesComparable]) (by simp)
  | cons entry entriesA ih =>
    obtain ⟨key, a⟩ := entry
    obtain ⟨ha, hA⟩ := List.forall_mem_cons.mp h
    rw [EntriesComparable, mapIsEqual]
    cases hb : entriesB.lookup key with
    | none => exact .inr ⟨id, rfl⟩
    | some b =>
      refine ((ha b (hB _ (mem_of_lookup hb))).and fun _ => ih hA).congr ?_
      simp [hb]

end

theorem Same.type_eq {v w : Value} (h : Same v w) : v.type = w.type := by
  cases h <;> rfl

theorem decides_of_type_ne {v w : Value} (h : v.type ≠ w.type) :
    Decides (Comparable v w) (Same v w) (isEqual v w) := by
  have hsame : ¬Same v w := fun hsame => h hsame.type_eq
  have hresult : Comparable v w ∧ isEqual v w = some false := by
    cases v <;> cases w <;> simp_all [Comparable, isEqual, type]
  rw [hresult.2]
  exact .of_iff hresult.1 (by simp [hsame])

theorem isEqual_decides {v w : Value} (hv : Valid v) (hw : Valid w) :
    Decides (Comparable v w) (Same v w) (isEqual v w) := by
  induction v using ind generalizing w with
  | null =>
    cases w with
    | null => exact .of_iff (by simp [Comparable]) (by simp [Same.null])
    | _ => exact decides_of_type_ne (by simp [type])
  | bool a =>
    cases w with
    | bool b => exact .of_iff (by simp [Comparable]) (by simpa [same_iff] using eq_comm)
    | _ => exact decides_of_type_ne (by simp [type])
  | unsignedInteger a =>
    cases w with
    | unsignedInteger b => exact .of_iff (by simp [Comparable]) (by simpa [same_iff] using eq_comm)
    | _ => exact decides_of_type_ne (by simp [type])
  | signedInteger a =>
    cases w with
    | signedInteger b =>
      -- the code compares the integers as unsigned ones
      have hinj : a.toUInt64 = b.toUInt64 ↔ a = b :=
        ⟨fun h => by simpa using congrArg UInt64.toInt64 h, congrArg _⟩
      exact .of_iff (by simp [Comparable]) (by simpa [same_iff, hinj] using eq_comm)
    | _ => exact decides_of_type_ne (by simp [type])
  | string a =>
    cases w with
    | string b => exact .of_iff (by simp [Comparable]) (by simpa [same_iff] using eq_comm)
    | _ => exact decides_of_type_ne (by simp [type])
  | array elemsA ih =>
    cases w with
    | array elemsB =>
      cases hv with | array hA =>
      cases hw with | array hB =>
      have hsame : Same (.array elemsA) (.array elemsB) ↔ List.Forall₂ Same elemsA elemsB := by
        simp [same_iff]
      rw [hsame, Comparable, isEqual]
      by_cases hlength : elemsA.length = elemsB.length
      · simp only [hlength, ne_eq, not_true_eq_false, if_false, true_implies]
        exact arrayIsEqual_decides hlength hB fun a ha b hb => ih a ha (hA a ha) hb
      · rw [if_pos hlength]
        exact .of_iff (fun h => absurd h hlength) (by simpa using fun h => hlength h.length_eq)
    | _ => exact decides_of_type_ne (by simp [type])
  | map entriesA ih =>
    cases w with
    | map entriesB =>
      cases hv with | map hkeysA hA =>
      cases hw with | map hkeysB hB =>
      have hsame : Same (.map entriesA) (.map entriesB) ↔
          ∀ key, Option.Rel Same (entriesA.lookup key) (entriesB.lookup key) := by simp [same_iff]
      rw [hsame, Comparable, isEqual]
      by_cases hlength : entriesA.length = entriesB.length
      · simp only [hlength, ne_eq, not_true_eq_false, if_false, true_implies]
        exact (mapIsEqual_decides hB fun entry hentry b hb =>
          ih entry hentry (hA entry hentry) hb).congr (forall_rel_iff hkeysA hlength)
      · rw [if_pos hlength]
        have hrel : ¬∀ key, Option.Rel Same (entriesA.lookup key) (entriesB.lookup key) :=
          fun h => hlength (length_eq_of_rel hkeysA hkeysB h)
        exact .of_iff (fun h => absurd h hlength) (by simp only [Bool.false_eq_true, hrel])
    | _ => exact decides_of_type_ne (by simp [type])

/-- The comparison never aborts and decides this equivalence relation exactly when it doesn't get to
a key of the first value which the second one doesn't have. -/
theorem isEqual_iff_comparable (v w : Value) :
    Equivalence Same ∧ (Valid v → Valid w →
      ((∃ ret, isEqual v w = some ret ∧ (ret = true ↔ Same v w)) ↔ Comparable v w)) := by
  refine ⟨⟨same_refl, Same.symm, Same.trans⟩, fun hv hw => ?_⟩
  rcases isEqual_decides hv hw with ⟨hcomparable, h⟩ | ⟨hcomparable, h⟩
  · exact iff_of_true h hcomparable
  · exact iff_of_false (fun ⟨_, heq, _⟩ => (by rw [h] at heq; cases heq)) hcomparable

theorem isEqual_iff_comparable_nested :
    Same (.array [.map [([97], .signedInteger (-1)), ([98], .null)]])
      (.array [.map [([98], .null), ([97], .signedInteger (-1))]]) := by
  have hA : Valid (.array [.map [([97], .signedInteger (-1)), ([98], .null)]]) := by
    refine .array (List.forall_mem_singleton.mpr (.map (by decide) ?_))
    simp [Valid.signedInteger, Valid.null]
  have hB : Valid (.array [.map [([98], .null), ([97], .signedInteger (-1))]]) := by
    refine .array (List.forall_mem_singleton.mpr (.map (by decide) ?_))
    simp [Valid.signedInteger, Valid.null]
  have hcomparable : Comparable (.array [.map [([97], .signedInteger (-1)), ([98], .null)]])
      (.array [.map [([98], .null), ([97], .signedInteger (-1))]]) := by
    simp [Comparable, ElemsComparable, EntriesComparable, List.lookup]
  obtain ⟨ret, heq, hret⟩ := ((isEqual_iff_comparable _ _).2 hA hB).mpr hcomparable
  exact hret.mp (Option.some.inj (heq.symm.trans (by decide)))

theorem isEqual_aborts :
    Valid (.map [([97], .null)]) ∧ Valid (.map [([98], .null)]) ∧
      isEqual (.map [([97], .null)]) (.map [([98], .null)]) = none :=
  ⟨.map (by decide) (by simp [Valid.null]), .map (by decide) (by simp [Valid.null]), by decide⟩

end Value

end Babeltrace.Values
