import Babeltrace.ItemSeqReads

/-!
# Default clock value

A default clock timestamp gives the low bits of the default clock value, of which the other bits
don't change unless the low ones wrap. The length of a variable-length integer is already reset when
its role is handled: its bits are then added to the default clock value.
-/
namespace Babeltrace.ItemSeq
open Program

def clkCandidates (cur val len : ℕ) : Set ℕ := { clk | cur ≤ clk ∧ clk % 2 ^ len = val }

/-- The low bits are those of the field and, unless they're all its bits or no 64-bit value is left,
it's the first such value from the current one on. -/
structure ClkFollows (cur val len clk : ℕ) : Prop where
  low : clk % 2 ^ len = val
  next : len < 64 → (∃ clk ∈ clkCandidates cur val len, clk < 2 ^ 64) →
    clk < cur + 2 ^ len ∧ IsLeast (clkCandidates cur val len) clk

section
variable {cur val len : ℕ}

theorem or_of_mul (q : ℕ) (h : val < 2 ^ len) : (2 ^ len * q) ||| val = 2 ^ len * q + val :=
  (Nat.two_pow_add_eq_or_of_lt h q).symm

theorem updateDefClkVal_eq (hlen : len < 64) (hval : val < 2 ^ len) :
    updateDefClkVal cur val len =
      2 ^ len * (if val < cur % 2 ^ len then (cur + 2 ^ len) % 2 ^ 64 / 2 ^ len
        else cur / 2 ^ len) + val := by
  have hpow : 2 ^ len - 1 + 1 = 2 ^ len := Nat.sub_add_cancel (Nat.two_pow_pos len)
  have hclear : ∀ n, n - n % 2 ^ len = 2 ^ len * (n / 2 ^ len) := by
    intro n
    have hdiv := Nat.div_add_mod n (2 ^ len)
    omega
  rw [updateDefClkVal, if_neg (by omega)]
  simp only [Nat.and_two_pow_sub_one_eq_mod, hpow, hclear]
  rw [or_of_mul _ hval]
  split <;> rfl

theorem clkFollows_updateDefClkVal (hcur : cur < 2 ^ 64) (hlen : len ≤ 64) (hval : val < 2 ^ len) :
    ClkFollows cur val len (updateDefClkVal cur val len) := by
  by_cases h64 : len = 64
  · subst h64
    refine ⟨?_, fun h => absurd h (by decide)⟩
    rw [updateDefClkVal, if_pos rfl, Nat.mod_eq_of_lt hval]
  have hlt : len < 64 := by omega
  have heq := @updateDefClkVal_eq cur val len hlt hval
  have hpos := Nat.two_pow_pos len
  have hmod := Nat.div_add_mod cur (2 ^ len)
  have hmodlt := Nat.mod_lt cur hpos
  have hlow : updateDefClkVal cur val len % 2 ^ len = val := by
    rw [heq, Nat.mul_add_mod, Nat.mod_eq_of_lt hval]
  refine ⟨hlow, fun _ hroom => ?_⟩
  obtain ⟨clk, ⟨hle, hclk⟩, hclk64⟩ := hroom
  -- Any candidate has the same low bits, thus at least as many multiples of their weight.
  have hfirst : ∀ clk ∈ clkCandidates cur val len,
      cur / 2 ^ len + (if val < cur % 2 ^ len then 1 else 0) ≤ clk / 2 ^ len := by
    rintro clk ⟨hle, hclk⟩
    have hdiv := Nat.div_add_mod clk (2 ^ len)
    have hmono := Nat.div_le_div_right (c := 2 ^ len) hle
    split
    · rename_i hwrap
      rcases Nat.lt_or_ge (cur / 2 ^ len) (clk / 2 ^ len) with h | h
      · omega
      · have hq : clk / 2 ^ len = cur / 2 ^ len := by omega
        rw [hq] at hdiv
        omega
    · exact hmono
  have hval' : updateDefClkVal cur val len =
      2 ^ len * (cur / 2 ^ len + if val < cur % 2 ^ len then 1 else 0) + val := by
    rw [heq]
    split
    · rename_i hwrap
      have hdiv := Nat.div_add_mod clk (2 ^ len)
      have hq := hfirst clk ⟨hle, hclk⟩
      rw [if_pos hwrap] at hq
      have hsum : cur + 2 ^ len < 2 ^ 64 := by
        have hmul := Nat.mul_le_mul_left (2 ^ len) hq
        rw [Nat.mul_add, Nat.mul_one] at hmul
        have hdvd : 2 ^ len ∣ 2 ^ 64 := Nat.pow_dvd_pow 2 (by omega)
        obtain ⟨c, hc⟩ := hdvd
        have hqc : clk / 2 ^ len < c := by
          apply Nat.div_lt_of_lt_mul
          rwa [← hc]
        have hmul' := Nat.mul_le_mul_left (2 ^ len) (show cur / 2 ^ len + 1 + 1 ≤ c by omega)
        rw [← hc, Nat.mul_add, Nat.mul_add, Nat.mul_one] at hmul'
        omega
      rw [Nat.mod_eq_of_lt hsum, Nat.add_div_right _ hpos]
    · rfl
  refine ⟨?_, ⟨?_, hlow⟩, fun clk' hclk' => ?_⟩
  · rw [hval']
    split <;> rw [Nat.mul_add] <;> omega
  · rw [hval']
    split <;> rw [Nat.mul_add] <;> omega
  · have hdiv := Nat.div_add_mod clk' (2 ^ len)
    have hmul := Nat.mul_le_mul_left (2 ^ len) (hfirst clk' hclk')
    rw [hclk'.2] at hdiv
    rw [hval']
    omega

theorem updateDefClkVal_zero (cur val : ℕ) : updateDefClkVal cur val 0 = cur ||| val := by
  simp [updateDefClkVal]

theorem clkFollows_or_iff (hlen : len ≤ 64) (hval : val < 2 ^ len) (hcur : cur < 2 ^ 64) :
    ClkFollows cur val len (cur ||| val) ↔ cur % 2 ^ len ||| val = val := by
  have hmod : (cur ||| val) % 2 ^ len = cur % 2 ^ len ||| val := by
    rw [Nat.or_mod_two_pow, Nat.mod_eq_of_lt hval]
  constructor
  · intro h
    rw [← hmod, h.low]
  · intro h
    have hle : cur % 2 ^ len ≤ val := h ▸ Nat.left_le_or
    have hparts : cur = 2 ^ len * (cur / 2 ^ len) ||| cur % 2 ^ len := by
      rw [or_of_mul _ (Nat.mod_lt _ (Nat.two_pow_pos len)), Nat.div_add_mod]
    have heq : cur ||| val = 2 ^ len * (cur / 2 ^ len) + val := calc
      cur ||| val = (2 ^ len * (cur / 2 ^ len) ||| cur % 2 ^ len) ||| val := by rw [← hparts]
      _ = 2 ^ len * (cur / 2 ^ len) ||| val := by rw [Nat.or_assoc, h]
      _ = 2 ^ len * (cur / 2 ^ len) + val := or_of_mul _ hval
    by_cases h64 : len = 64
    · exact ⟨hmod.trans h, fun hlt => absurd hlt (by omega)⟩
    · have hfollows := clkFollows_updateDefClkVal hcur hlen hval
      rwa [updateDefClkVal_eq (by omega) hval, if_neg (by omega), ← heq] at hfollows

end

/-! ## Fields -/

def Item.IsUInt (sfc : ScalarFc) (val len : ℕ) (item : Item) : Prop :=
  (∃ fc roles indexes, sfc = .fixedLen .uInt fc roles indexes ∧ len = fc.len ∧
    item = .fixedLenField .uInt sfc val) ∨
  (∃ roles indexes, sfc = .varLenInt false roles indexes ∧ item = .varLenIntField false sfc val len)

def ScalarFc.isFixedLen : ScalarFc → Bool
  | .fixedLen .. => true
  | .varLenInt .. => false

/-- The roles of a class are a set. -/
structure DecodesTs (tc : TraceCls) (m : Medium) (s s' : Iter) (sfc : ScalarFc) (val len : ℕ) :
    Prop where
  cur : s.curScalarFc = some sfc
  state : s.state = sfc.readState
  role : sfc.roles.count .defClkTs = 1
  handles : ∃ reaction, handleState tc m s = .ok reaction s'
  item : ∃ item ∈ s'.curItem, item.IsUInt sfc val len
  len_le : len ≤ 64
  val_lt : val < 2 ^ len
  clk_lt : s.defClkVal < 2 ^ 64

section
variable {tc : TraceCls} {m : Medium} {s s' : Iter} {sfc : ScalarFc} {val len : ℕ}

theorem defClkVal_foldl_handleRole (roles : List UIntFieldRole) (s : Iter) :
    (roles.foldl (handleRole len val) s).defClkVal =
      (updateDefClkVal · val len)^[roles.count .defClkTs] s.defClkVal := by
  induction roles generalizing s with
  | nil => rfl
  | cons role roles ih =>
    rw [List.foldl_cons, ih, List.count_cons]
    cases role <;> rfl

theorem curItem_foldl_handleRole (roles : List UIntFieldRole) (s : Iter) :
    (roles.foldl (handleRole len val) s).curItem = s.curItem := by
  induction roles generalizing s with
  | nil => rfl
  | cons role roles ih =>
    rw [List.foldl_cons, ih]
    cases role <;> rfl

theorem state_foldl_handleRole (roles : List UIntFieldRole) (s : Iter)
    (h : .defClkTs ∈ roles ∨ s.state = .setDefClkValItem ∨ s.state = .setPktMagicNumberItem) :
    (roles.foldl (handleRole len val) s).state = .setDefClkValItem ∨
      (roles.foldl (handleRole len val) s).state = .setPktMagicNumberItem := by
  induction roles generalizing s with
  | nil => exact h.resolve_left List.not_mem_nil
  | cons role roles ih =>
    refine ih _ ?_
    cases role
    case defClkTs => exact .inr (.inl rfl)
    case pktMagicNumber => exact .inr (.inr rfl)
    all_goals exact h.imp_left fun hmem => (List.mem_cons.mp hmem).resolve_left (by decide)

theorem handleUIntFieldRoles_ts {roles : List UIntFieldRole} (hmem : .defClkTs ∈ roles)
    (hstate : s.state ≠ .setDefClkValItem ∧ s.state ≠ .setPktMagicNumberItem) :
    handleUIntFieldRoles roles len val s = .ok () (roles.foldl (handleRole len val) s) := by
  have hne : (roles.foldl (handleRole len val) s).state ≠ s.state := by
    obtain heq | heq := @state_foldl_handleRole val len roles s (.inl hmem) <;> rw [heq]
    · exact hstate.1.symm
    · exact hstate.2.symm
  simp [handleUIntFieldRoles, hne]

theorem handleCommonUIntField_ts {saveVal : Bool} (hrole : sfc.roles.count .defClkTs = 1)
    (hstate : s.state ≠ .setDefClkValItem ∧ s.state ≠ .setPktMagicNumberItem)
    (h : handleCommonUIntField sfc true saveVal len val s = .ok () s') :
    s'.defClkVal = updateDefClkVal s.defClkVal val len ∧ s'.curItem = s.curItem := by
  have hmem : .defClkTs ∈ sfc.roles := List.count_pos_iff.mp (by omega)
  have hroles (s₁ : Iter) (hs₁ : s₁.state = s.state)
      (h : handleUIntFieldRoles sfc.roles len val s₁ = .ok () s') :
      s'.defClkVal = updateDefClkVal s₁.defClkVal val len ∧ s'.curItem = s₁.curItem := by
    rw [handleUIntFieldRoles_ts hmem (by rwa [hs₁])] at h
    cases h
    rw [defClkVal_foldl_handleRole, hrole, curItem_foldl_handleRole]
    exact ⟨rfl, rfl⟩
  cases saveVal with
  | false => exact hroles s rfl h
  | true => exact hroles { s with toDec := saveKeyVal sfc.keyValSavingIndexes val s.toDec } rfl h

theorem liftDec_eq_ok {α : Type} {p : DecM α} {a : α} (h : liftDec p s = .ok a s') :
    ∃ d, p s.toDec = .ok a d ∧ s' = { s with toDec := d } := by
  rw [liftDec] at h
  split at h
  · rename_i d hp
    cases h
    exact ⟨d, hp, rfl⟩
  · cases h

theorem alignHead_ts {align : ℕ} (h : alignHead m align s = .ok () s') :
    s'.defClkVal = s.defClkVal ∧ s'.state = s.state ∧ s'.curScalarFc = s.curScalarFc := by
  obtain ⟨-, hmoved, hstate, hs'⟩ := alignHead_ok h
  refine ⟨?_, hstate, ?_⟩
  · rw [hmoved]
  · rw [hs']

theorem readFixedLenField_ts {p : ReadParams} {fc : FixedLenBitArrayFc} {v : ℤ}
    (h : readFixedLenField m .uInt p sfc fc s = .ok v s') :
    s'.defClkVal = s.defClkVal ∧ s'.state = s.state ∧
      s'.curItem = some (.fixedLenField .uInt sfc v) := by
  obtain ⟨_, s₁, halign, h⟩ := bind_eq_ok h
  obtain ⟨hclk, hstate, -⟩ := alignHead_ts halign
  obtain ⟨v', s₂, hread, h⟩ := bind_eq_ok h
  obtain ⟨d, hd, rfl⟩ := liftDec_eq_ok hread
  cases h
  refine ⟨?_, hstate, rfl⟩
  rw [← hclk]
  exact (congrArg Dec.defClkVal ((readFixedLenInt_reads m _ p fc).ok hd) :)

theorem varLenLoop_len {isSigned : Bool} {n : ℕ} {d d' : Dec} {r : ℤ × ℕ}
    (h : varLenLoop m isSigned n d = .ok r d') : d'.curVarLenIntLen = 0 := by
  induction n generalizing d with
  | zero => cases h
  | succ n ih =>
    obtain ⟨_, d₁, -, h⟩ := bind_eq_ok h
    obtain ⟨_, d₂, -, h⟩ := bind_eq_ok h
    obtain ⟨_, d₃, -, h⟩ := bind_eq_ok h
    split at h
    · cases h
      rfl
    · exact ih h

theorem DecodesTs.defClkVal_eq (h : DecodesTs tc m s s' sfc val len) :
    s'.defClkVal = if sfc.isFixedLen then updateDefClkVal s.defClkVal val len
      else s.defClkVal ||| val := by
  obtain ⟨hcur, hstate, hrole, ⟨reaction, hh⟩, ⟨item, hitem, huint⟩, -, -, -⟩ := h
  obtain ⟨fc, roles, indexes, rfl, rfl, rfl⟩ | ⟨roles, indexes, rfl, rfl⟩ := huint
  · have hroles : roles ≠ [] := by
      rintro rfl
      cases hrole
    simp only [ScalarFc.readState, hroles, ne_eq, not_false_eq_true, and_self,
      decide_true] at hstate
    simp only [handleState, hstate, handleReadFixedLenField] at hh
    obtain ⟨cur, s₀, hget, hh⟩ := bind_eq_ok hh
    cases hget
    rw [hcur] at hh
    obtain ⟨v, s₁, hread, hh⟩ := bind_eq_ok hh
    obtain ⟨hclk, hstate₁, hitem₁⟩ := readFixedLenField_ts hread
    obtain ⟨_, s₂, hafter, hh⟩ := bind_eq_ok hh
    cases hh
    obtain ⟨hclk₂, hitem₂⟩ := handleCommonUIntField_ts hrole
      (by rw [hstate₁, hstate]; exact ⟨by simp, by simp⟩) hafter
    rw [hitem₂, hitem₁] at hitem
    cases hitem
    rw [hclk₂, hclk]
    rfl
  · have hroles : roles ≠ [] := by
      rintro rfl
      cases hrole
    simp only [ScalarFc.readState, hroles, ne_eq, not_false_eq_true, and_self, Bool.not_false,
      decide_true] at hstate
    simp only [handleState, hstate, handleReadVarLenIntField] at hh
    obtain ⟨cur, s₀, hget, hh⟩ := bind_eq_ok hh
    cases hget
    rw [hcur] at hh
    obtain ⟨_, s₁, halign, hh⟩ := bind_eq_ok hh
    obtain ⟨hclk, hstate₁, -⟩ := alignHead_ts halign
    obtain ⟨⟨v, len'⟩, s₂, hread, hh⟩ := bind_eq_ok hh
    obtain ⟨d, hd, rfl⟩ := liftDec_eq_ok hread
    have hclk₂ : d.defClkVal = s₁.defClkVal :=
      (congrArg Dec.defClkVal ((varLenLoop_reads m _ _).ok hd) :)
    obtain ⟨_, s₃, hupdate, hh⟩ := bind_eq_ok hh
    cases hupdate
    obtain ⟨_, _, hlen, hh⟩ := bind_eq_ok hh
    cases hlen
    obtain ⟨_, s₄, hafter, hh⟩ := bind_eq_ok hh
    cases hh
    obtain ⟨hclk₄, hitem₄⟩ := handleCommonUIntField_ts hrole
      (by simp only; rw [hstate₁, hstate]; exact ⟨by simp, by simp⟩) hafter
    rw [hitem₄] at hitem
    cases hitem
    rw [hclk₄, varLenLoop_len hd, updateDefClkVal_zero]
    simp only [hclk₂, hclk]
    rfl

def TsStep (cur clk : ℕ) : Prop :=
  ∃ tc m s s' sfc val len, DecodesTs tc m s s' sfc val len ∧ s.defClkVal = cur ∧
    s'.defClkVal = clk ∧ len < 64 ∧ ∃ clk ∈ clkCandidates cur val len, clk < 2 ^ 64

theorem TsStep.le {cur clk : ℕ} (h : TsStep cur clk) : cur ≤ clk := by
  obtain ⟨tc, m, s, s', sfc, val, len, hts, rfl, rfl, hlen, hroom⟩ := h
  rw [hts.defClkVal_eq]
  split
  · have hfollows := clkFollows_updateDefClkVal hts.clk_lt hts.len_le hts.val_lt
    exact (hfollows.next hlen hroom).2.1.1
  · exact Nat.left_le_or

theorem le_of_tsSteps {cur clk : ℕ} (h : Relation.ReflTransGen TsStep cur clk) : cur ≤ clk := by
  induction h with
  | refl => exact le_rfl
  | tail _ hstep ih => exact ih.trans hstep.le

/-- The default clock value follows the timestamp of a fixed-length field. The one of a
variable-length field is right when it sets no bit to zero. It never decreases. -/
theorem decodesTs_clkFollows_iff (h : DecodesTs tc m s s' sfc val len) :
    (ClkFollows s.defClkVal val len s'.defClkVal ↔
      sfc.isFixedLen ∨ s.defClkVal % 2 ^ len ||| val = val) ∧
    ∀ cur clk, Relation.ReflTransGen TsStep cur clk → cur ≤ clk := by
  refine ⟨?_, fun cur clk => le_of_tsSteps⟩
  rw [h.defClkVal_eq]
  cases hfixed : sfc.isFixedLen with
  | true => simp [clkFollows_updateDefClkVal h.clk_lt h.len_le h.val_lt]
  | false => simpa using clkFollows_or_iff h.len_le h.val_lt h.clk_lt

end

def tsIter (sfc : ScalarFc) (clk : ℕ) : Iter where
  expectedTotalLen := 8
  expectedContentLen := 8
  defClkVal := clk
  state := sfc.readState
  curScalarFc := some sfc

def fixedLenTsFc : ScalarFc :=
  .fixedLen .uInt { align := 8, len := 8, byteOrder := .big, bitOrder := .lastToFirst }
    [.defClkTs] []

/-- The low eight bits wrap from 5 to 2. -/
theorem decodesTs_clkFollows_iff_wrap : ∃ s', DecodesTs paddedTraceCls (.ofBytes [2] 1)
    (tsIter fixedLenTsFc 5) s' fixedLenTsFc 2 8 ∧ ClkFollows 5 2 8 s'.defClkVal := by
  have hts : ∃ s', DecodesTs paddedTraceCls (.ofBytes [2] 1) (tsIter fixedLenTsFc 5) s'
      fixedLenTsFc 2 8 :=
    ⟨_, rfl, rfl, rfl, ⟨_, rfl⟩, ⟨_, rfl, .inl ⟨_, _, _, rfl, rfl, rfl⟩⟩, by decide, by decide,
      by decide⟩
  obtain ⟨s', hs'⟩ := hts
  exact ⟨s', hs', (decodesTs_clkFollows_iff hs').1.mpr (.inl rfl)⟩

/-- The seven bits are 2 and the default clock value is 5: it becomes 7. -/
theorem varLenTs_not_clkFollows : ∃ s', DecodesTs paddedTraceCls (.ofBytes [2] 1)
    (tsIter (.varLenInt false [.defClkTs] []) 5) s' (.varLenInt false [.defClkTs] []) 2 7 ∧
    s'.defClkVal = 7 ∧ ¬ ClkFollows 5 2 7 s'.defClkVal := by
  refine ⟨_, ⟨rfl, rfl, rfl, ⟨_, rfl⟩, ⟨_, rfl, .inr ⟨_, _, rfl, rfl⟩⟩, by decide, by decide,
    by decide⟩, rfl, fun h => ?_⟩
  exact absurd h.low (by decide)

end Babeltrace.ItemSeq
