import Mathlib

/-!
# LEB128

An integer as groups of seven bits, the least significant group first, one byte a group: each byte
but the last one has its most significant bit set.
-/
namespace Leb128

def groupsVal : List UInt8 → ℕ
  | [] => 0
  | b :: bs => b.toNat % 128 + 128 * groupsVal bs

def IsEncoding : List UInt8 → Prop
  | [] => False
  | b :: bs => if b.toNat < 128 then bs = [] else IsEncoding bs

instance IsEncoding.decidable : ∀ bs, Decidable (IsEncoding bs)
  | [] => inferInstanceAs (Decidable False)
  | b :: bs =>
    letI := IsEncoding.decidable bs
    inferInstanceAs (Decidable (if b.toNat < 128 then bs = [] else IsEncoding bs))

/-- With a sign, two's complement of seven bits a byte -/
def decode (isSigned : Bool) (bs : List UInt8) : ℤ :=
  if isSigned ∧ 2 ^ (7 * bs.length) ≤ 2 * groupsVal bs then groupsVal bs - 2 ^ (7 * bs.length)
  else groupsVal bs

def IsMinimal (isSigned : Bool) (bs : List UInt8) : Prop :=
  ∀ bs', IsEncoding bs' → decode isSigned bs' = decode isSigned bs → bs.length ≤ bs'.length

variable {isSigned : Bool} {b : UInt8} {bs bs' tail : List UInt8}

theorem isEncoding_cons_of_lt (hb : b.toNat < 128) : IsEncoding (b :: bs) ↔ bs = [] := by
  rw [IsEncoding, if_pos hb]

theorem isEncoding_cons_of_le (hb : 128 ≤ b.toNat) : IsEncoding (b :: bs) ↔ IsEncoding bs := by
  rw [IsEncoding, if_neg (by omega)]

theorem two_pow_groups_succ (k : ℕ) : 2 ^ (7 * (k + 1)) = 128 * 2 ^ (7 * k) := by
  rw [Nat.mul_add, Nat.pow_add]
  omega

theorem groupsVal_lt (bs : List UInt8) : groupsVal bs < 2 ^ (7 * bs.length) := by
  induction bs with
  | nil => decide
  | cons b bs ih =>
    rw [groupsVal, List.length_cons, two_pow_groups_succ]
    omega

theorem groupsVal_append (bs bs' : List UInt8) :
    groupsVal (bs ++ bs') = groupsVal bs + 2 ^ (7 * bs.length) * groupsVal bs' := by
  induction bs with
  | nil => simp [groupsVal]
  | cons b bs ih =>
    rw [List.cons_append, groupsVal, groupsVal, ih, List.length_cons, two_pow_groups_succ]
    ring

theorem IsEncoding.unique (h : IsEncoding bs) (h' : IsEncoding bs') (hp : bs <+: tail)
    (hp' : bs' <+: tail) : bs = bs' := by
  induction bs generalizing bs' tail with
  | nil => exact h.elim
  | cons b bs ih =>
    cases bs' with
    | nil => exact h'.elim
    | cons b' bs' =>
      obtain ⟨rest, rfl⟩ := hp
      obtain ⟨rfl, hp''⟩ := List.cons_prefix_cons.mp hp'
      by_cases hb : b'.toNat < 128
      · rw [(isEncoding_cons_of_lt hb).mp h, (isEncoding_cons_of_lt hb).mp h']
      · have hb : 128 ≤ b'.toNat := by omega
        rw [ih ((isEncoding_cons_of_le hb).mp h) ((isEncoding_cons_of_le hb).mp h')
          (List.prefix_append _ _) hp'']

theorem IsEncoding.exists_last (h : IsEncoding bs) :
    ∃ init last, bs = init ++ [last] ∧ last.toNat < 128 ∧ ∀ b ∈ init, 128 ≤ b.toNat := by
  induction bs with
  | nil => exact h.elim
  | cons b bs ih =>
    by_cases hb : b.toNat < 128
    · exact ⟨[], b, by rw [(isEncoding_cons_of_lt hb).mp h, List.nil_append], hb, by simp⟩
    · have hb : 128 ≤ b.toNat := by omega
      obtain ⟨init, last, rfl, hlast, hinit⟩ := ih ((isEncoding_cons_of_le hb).mp h)
      exact ⟨b :: init, last, rfl, hlast, List.forall_mem_cons.mpr ⟨hb, hinit⟩⟩

theorem isEncoding_append (h : ∀ b ∈ bs, 128 ≤ b.toNat) (hb : b.toNat < 128) :
    IsEncoding (bs ++ [b]) := by
  induction bs with
  | nil => exact (isEncoding_cons_of_lt hb).mpr rfl
  | cons b' bs ih =>
    obtain ⟨hb', h⟩ := List.forall_mem_cons.mp h
    exact (isEncoding_cons_of_le hb').mpr (ih h)

theorem IsMinimal.last_ne_zero (hmin : IsMinimal false bs) (h : IsEncoding bs)
    (hlen : 2 ≤ bs.length) : 2 ^ (7 * (bs.length - 1)) ≤ groupsVal bs := by
  obtain ⟨init, last, rfl, hlast, hinit⟩ := h.exists_last
  rw [List.length_append, List.length_singleton, Nat.add_sub_cancel, groupsVal_append]
  by_contra hlt
  have hzero : groupsVal [last] = 0 := by
    by_contra hne
    exact hlt (Nat.le_add_left_of_le (Nat.le_mul_of_pos_right _ (Nat.pos_of_ne_zero hne)))
  -- The last byte but one ends a shorter encoding.
  obtain rfl | ⟨init, prev, rfl⟩ := List.eq_nil_or_concat' init
  · simp at hlen
  · have hprev := hinit prev (by simp)
    have hprevLt := prev.toNat_lt
    have hclear : (UInt8.ofNat (prev.toNat - 128)).toNat = prev.toNat - 128 := by
      rw [UInt8.toNat_ofNat', Nat.mod_eq_of_lt (by omega)]
    have hgroup : groupsVal [UInt8.ofNat (prev.toNat - 128)] = groupsVal [prev] := by
      simp only [groupsVal, hclear]
      omega
    have hshort := hmin (init ++ [UInt8.ofNat (prev.toNat - 128)])
      (isEncoding_append (fun b hb => hinit b (by simp [hb])) (by omega)) (by
        simp only [decode, Bool.false_eq_true, false_and, if_false, groupsVal_append, hgroup, hzero,
          Nat.mul_zero, Nat.add_zero])
    simp at hshort

end Leb128
