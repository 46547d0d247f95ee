import Mathlib

/-!
# Numerals

A numeral which isn't followed by a digit can be read back.
-/
namespace Babeltrace

structure Digits (α : Type*) where
  base : ℕ
  symbol : ℕ → α
  val : α → Option ℕ
  one_lt_base : 1 < base
  val_symbol : ∀ d < base, val (symbol d) = some d

namespace Digits

variable {α : Type*} (D : Digits α)

def isDigit (c : α) : Bool := (D.val c).isSome

def numeral (n : ℕ) : List α :=
  if n = 0 then [D.symbol 0] else (D.base.digits n).reverse.map D.symbol

def value (cs : List α) : ℕ := cs.foldl (fun v c => v * D.base + (D.val c).getD 0) 0

def Ends (cs : List α) : Prop := ∀ c ∈ cs.head?, D.isDigit c = false

variable {D} {n width : ℕ} {c : α} {cs : List α}

theorem isDigit_symbol {d : ℕ} (hd : d < D.base) : D.isDigit (D.symbol d) = true := by
  rw [isDigit, D.val_symbol d hd, Option.isSome_some]

theorem isDigit_symbol_zero : D.isDigit (D.symbol 0) = true :=
  isDigit_symbol (Nat.zero_lt_of_lt D.one_lt_base)

theorem isDigit_of_mem_numeral (hc : c ∈ D.numeral n) : D.isDigit c = true := by
  unfold numeral at hc
  split at hc
  · rw [List.mem_singleton] at hc
    rw [hc]
    exact isDigit_symbol_zero
  · obtain ⟨d, hd, rfl⟩ := List.mem_map.mp hc
    exact isDigit_symbol (Nat.digits_lt_base D.one_lt_base (List.mem_reverse.mp hd))

theorem numeral_ne_nil : D.numeral n ≠ [] := by
  unfold numeral
  split
  · exact List.cons_ne_nil _ _
  · rename_i hn
    rw [ne_eq, List.map_eq_nil_iff, List.reverse_eq_nil_iff]
    exact Nat.digits_ne_nil_iff_ne_zero.mpr hn

theorem value_append_singleton : D.value (cs ++ [c]) = D.value cs * D.base + (D.val c).getD 0 := by
  rw [value, List.foldl_append, List.foldl_cons, List.foldl_nil, value]

theorem value_map_symbol {ds : List ℕ} (hds : ∀ d ∈ ds, d < D.base) :
    D.value (ds.reverse.map D.symbol) = Nat.ofDigits D.base ds := by
  induction ds with
  | nil => rfl
  | cons d ds ih =>
    have hval := D.val_symbol d (hds d List.mem_cons_self)
    rw [List.reverse_cons, List.map_append, List.map_singleton, value_append_singleton,
      ih fun d' hd' => hds d' (List.mem_cons_of_mem d hd'), hval, Option.getD_some,
      Nat.ofDigits_cons, Nat.add_comm, Nat.mul_comm]

theorem value_numeral : D.value (D.numeral n) = n := by
  unfold numeral
  split
  · rename_i hn
    rw [hn]
    have hzero : ∀ d ∈ [0], d < D.base := by simpa using Nat.zero_lt_of_lt D.one_lt_base
    exact value_map_symbol hzero
  · rw [value_map_symbol fun d hd => Nat.digits_lt_base D.one_lt_base hd, Nat.ofDigits_digits]

theorem ends_nil : D.Ends [] := nofun

theorem ends_cons (h : D.isDigit c = false) : D.Ends (c :: cs) := by
  rintro _ ⟨⟩
  exact h

theorem takeWhile_append {ds : List α} (hds : ∀ c ∈ ds, D.isDigit c = true) (hcs : D.Ends cs) :
    (ds ++ cs).takeWhile D.isDigit = ds := by
  have htake : cs.takeWhile D.isDigit = [] := by
    cases cs with
    | nil => rfl
    | cons c cs => rw [List.takeWhile_cons_of_neg (by rw [hcs c rfl]; exact Bool.false_ne_true)]
  rw [List.takeWhile_append_of_pos hds, htake, List.append_nil]

theorem dropWhile_append {ds : List α} (hds : ∀ c ∈ ds, D.isDigit c = true) (hcs : D.Ends cs) :
    (ds ++ cs).dropWhile D.isDigit = cs := by
  rw [List.dropWhile_append_of_pos hds]
  cases cs with
  | nil => rfl
  | cons c cs => rw [List.dropWhile_cons_of_neg (by rw [hcs c rfl]; exact Bool.false_ne_true)]

def ofDecimal (symbol : ℕ → α) (val : α → Option ℕ) (h : ∀ d < 10, val (symbol d) = some d) :
    Digits α where
  base := 10
  symbol := symbol
  val := val
  one_lt_base := by decide
  val_symbol := h

def decimal : Digits Char :=
  .ofDecimal (fun d => Char.ofNat (48 + d))
    (fun c => if 48 ≤ c.toNat ∧ c.toNat < 58 then some (c.toNat - 48) else none) (by decide)

end Digits

end Babeltrace
