import Babeltrace.ItemSeqReads
import Babeltrace.ItemSeqRefine

/-!
# Confinement of the decoding head

The buffer holds bytes of the item sequence around the head, and the head of a packet doesn't pass
its expected content length, unless this length is already passed when it's set.
-/
namespace Babeltrace.ItemSeq
open Machine Program

theorem safeSub_of_le {a b : ℕ} (h : b ≤ a) : safeSub a b = a - b := if_pos h

/-- If `c` holds, the head is within the content of the packet. -/
structure Dec.Fits (bytes : List UInt8) (c : Prop) (d : Dec) : Prop where
  pktOffset_mod : d.curPktOffsetInItemSeq % 8 = 0
  bufOffset_mod : d.bufOffsetInCurPkt % 8 = 0
  bufOffset_le : d.bufOffsetInCurPkt ≤ d.headOffsetInCurPkt
  head_le : d.headOffsetInCurPkt ≤ d.bufOffsetInCurPkt + 8 * d.buf.length
  buf_le : d.curPktOffsetInItemSeq + d.bufOffsetInCurPkt + 8 * d.buf.length ≤ 8 * bytes.length
  buf_eq : d.buf =
    (bytes.drop ((d.curPktOffsetInItemSeq + d.bufOffsetInCurPkt) / 8)).take d.buf.length
  content : c → d.headOffsetInCurPkt ≤ d.expectedContentLen ∧
    d.expectedContentLen ≤ d.expectedTotalLen ∧ d.expectedTotalLen % 8 = 0 ∧
    (d.expectedTotalLen = infDataLen → d.expectedContentLen = infDataLen)

section
variable {bytes : List UInt8} {c : Prop} {m : Medium} {d d' : Dec} {len : ℕ} {I E : Dec → Prop}

theorem Dec.Fits.remainingBufLen_eq (h : d.Fits bytes c) :
    d.remainingBufLen = d.bufOffsetInCurPkt + 8 * d.buf.length - d.headOffsetInCurPkt :=
  safeSub_of_le h.head_le

theorem Dec.Fits.remainingPktContentLen_eq (h : d.Fits bytes c) (hc : c) :
    d.remainingPktContentLen = d.expectedContentLen - d.headOffsetInCurPkt :=
  safeSub_of_le (h.content hc).1

theorem Dec.Fits.consume (h : d.Fits bytes c)
    (hbuf : d.headOffsetInCurPkt + len ≤ d.bufOffsetInCurPkt + 8 * d.buf.length)
    (hcontent : c → d.headOffsetInCurPkt + len ≤ d.expectedContentLen) :
    Dec.Fits bytes c { d with headOffsetInCurPkt := d.headOffsetInCurPkt + len } where
  pktOffset_mod := h.pktOffset_mod
  bufOffset_mod := h.bufOffset_mod
  bufOffset_le := Nat.le_trans h.bufOffset_le (Nat.le_add_right _ _)
  head_le := hbuf
  buf_le := h.buf_le
  buf_eq := h.buf_eq
  content hc := ⟨hcontent hc, (h.content hc).2⟩

def Dec.Has (c : Prop) (d : Dec) (len : ℕ) : Prop :=
  d.headOffsetInCurPkt + len ≤ d.bufOffsetInCurPkt + 8 * d.buf.length ∧
    (c → d.headOffsetInCurPkt + len ≤ d.expectedContentLen)

theorem tryHaveData_fits (hm : m.Over bytes) (hlen : 0 < len) :
    Triple (Dec.Fits bytes c) (tryHaveData m len) (fun b d => d.Fits bytes c ∧ (b = true →
      d.headOffsetInCurPkt + len ≤ d.bufOffsetInCurPkt + 8 * d.buf.length))
      (Dec.Fits bytes c) := by
  intro d h
  have hrem := h.remainingBufLen_eq
  have hpkt := h.pktOffset_mod
  simp only [tryHaveData]
  by_cases hle : len ≤ d.remainingBufLen
  · simp only [hle, if_true]
    exact ⟨h, fun _ => by omega⟩
  simp only [hle, if_false]
  generalize hoffset : d.curPktOffsetInItemSeq / 8 + d.headOffsetInCurPkt / 8 = offset
  generalize hsize : (len + 7 + d.headOffsetInCurPkt % 8) / 8 = size
  have hover := hm offset size (by omega)
  cases hbuf : m offset size with
  | noData => exact ⟨h, fun h => by cases h⟩
  | tryAgain => exact h
  | buf b =>
    rw [hbuf] at hover
    obtain ⟨hmin, hlen', hbytes⟩ := hover
    have hsub : safeSub (8 * offset) d.curPktOffsetInItemSeq =
        d.headOffsetInCurPkt / 8 * 8 := by
      rw [safeSub_of_le (by omega)]
      omega
    have hoff : (d.curPktOffsetInItemSeq + d.headOffsetInCurPkt / 8 * 8) / 8 = offset := by omega
    refine ⟨⟨hpkt, ?_, ?_, ?_, ?_, ?_, h.content⟩, fun _ => ?_⟩ <;> simp only [hsub]
    · exact Nat.mul_mod_left _ _
    · omega
    · omega
    · omega
    · rw [hoff]
      exact hbytes
    · omega

theorem requireData_fits (hm : m.Over bytes) (hlen : 0 < len) :
    Triple (Dec.Fits bytes c) (requireData m len) (fun _ d => d.Fits bytes c ∧
      d.headOffsetInCurPkt + len ≤ d.bufOffsetInCurPkt + 8 * d.buf.length)
      (Dec.Fits bytes c) := by
  refine .bind (tryHaveData_fits hm hlen) fun b => ?_
  cases b with
  | false => exact fun d h => h.1
  | true => exact .pure fun d h => ⟨h.1, h.2 rfl⟩

theorem requireContentData_fits (hm : m.Over bytes) (hlen : 0 < len) :
    Triple (Dec.Fits bytes c) (requireContentData m len)
      (fun _ d => d.Fits bytes c ∧ d.Has c len) (Dec.Fits bytes c) := by
  intro d h
  have htriple := requireData_fits (c := c) hm hlen d h
  simp only [requireContentData, get_bind_apply]
  by_cases hremaining : d.remainingPktContentLen < len
  · simp only [hremaining, if_true]
    exact h
  simp only [hremaining, if_false]
  cases hd : requireData m len d with
  | error e d' =>
    rw [hd] at htriple
    exact htriple
  | ok _ d' =>
    rw [hd] at htriple
    refine ⟨htriple.1, htriple.2, fun hc => ?_⟩
    have hrem := h.remainingPktContentLen_eq hc
    have hhead := (h.content hc).1
    rw [(requireData_requests m len).ok hd]
    simp only
    omega

theorem readBuf_triple (hE : ∀ d, I d → E d) (size : ℕ) :
    Triple I (readBuf size) (fun bytes d => I d ∧ bytes.length = size) E := by
  intro d h
  unfold readBuf
  by_cases hle : size ≤ d.bufAtHead.length
  · simp only [hle, if_true]
    exact ⟨h, List.length_take_of_le hle⟩
  · simp only [hle, if_false]
    exact hE d h

theorem checkLastByteOrder_triple (hE : ∀ d, I d → E d) (fc : FixedLenBitArrayFc) :
    Triple I (checkLastByteOrder fc) (fun _ => I) E := by
  intro d h
  simp only [checkLastByteOrder, get_bind_apply]
  cases d.lastFixedLenBitArrayFieldByteOrder with
  | none => exact h
  | some last =>
    by_cases hne : d.headOffsetInCurPkt % 8 ≠ 0 ∧ fc.byteOrder ≠ last
    · simp only [if_pos hne]
      exact hE d h
    · simp only [if_neg hne]
      exact h

theorem readFixedLenInt_fits (hm : m.Over bytes) (isSigned : Bool) (p : ReadParams)
    (fc : FixedLenBitArrayFc) :
    Triple (Dec.Fits bytes c) (readFixedLenInt m isSigned p fc) (fun _ => Dec.Fits bytes c)
      (Dec.Fits bytes c) := by
  refine .bind (requireContentData_fits hm fc.len_pos) fun _ => .get_bind fun d hd => ?_
  have hE : ∀ d', d' = d → d'.Fits bytes c := by
    rintro _ rfl
    exact hd.1
  have hend (val : ℤ) (size : ℕ) (bytes' : List UInt8) :
      Triple (fun d' => d' = d ∧ bytes'.length = size) (do
        modify fun d : Dec => { d with lastFixedLenBitArrayFieldByteOrder := some fc.byteOrder }
        consumeAvailData fc.len
        pure val : DecM ℤ) (fun _ => Dec.Fits bytes c) (Dec.Fits bytes c) := by
    rintro _ ⟨rfl, -⟩
    have hfits := hd.1.consume hd.2.1 hd.2.2
    exact ⟨hfits.1, hfits.2, hfits.3, hfits.4, hfits.5, hfits.6, hfits.7⟩
  by_cases h0 : p.lenBits = 0
  · simp only [h0, if_true]
    exact .bind (checkLastByteOrder_triple hE fc) fun _ =>
      .bind (readBuf_triple hE _) fun bytes' => hend _ _ bytes'
  · simp only [h0, if_false]
    exact .bind (readBuf_triple hE _) fun bytes' => hend _ _ bytes'

theorem appendVarLenIntByte_fits (isSigned : Bool) (byte : ℕ) :
    Triple (fun d => d.Fits bytes c ∧ d.Has c 8) (appendVarLenIntByte isSigned byte)
      (fun _ => Dec.Fits bytes c) (Dec.Fits bytes c) := by
  refine .get_bind fun d hd => .ite (fun _ => ?_) fun _ => ?_
  · rintro _ rfl
    exact hd.1
  · rintro _ rfl
    have hfits := hd.1.consume hd.2.1 hd.2.2
    exact ⟨hfits.1, hfits.2, hfits.3, hfits.4, hfits.5, hfits.6, hfits.7⟩

theorem varLenLoop_fits (hm : m.Over bytes) (isSigned : Bool) (n : ℕ) :
    Triple (Dec.Fits bytes c) (varLenLoop m isSigned n) (fun _ => Dec.Fits bytes c)
      (Dec.Fits bytes c) := by
  induction n with
  | zero => exact fun d h => h
  | succ n ih =>
    refine .bind (requireContentData_fits hm (by omega)) fun _ =>
      .bind (readBuf_triple (fun d h => h.1) 1) fun bytes' => ?_
    refine .bind ((appendVarLenIntByte_fits isSigned _).weaken fun d h => h.1) fun _ =>
      .ite (fun _ => ?_) fun _ => ih
    refine .get_bind fun d hd => ?_
    rintro _ rfl
    exact ⟨hd.1, hd.2, hd.3, hd.4, hd.5, hd.6, hd.7⟩

theorem readRawData_fits (hm : m.Over bytes) (remaining : ℕ) :
    Triple (Dec.Fits bytes c) (readRawData m remaining) (fun _ => Dec.Fits bytes c)
      (Dec.Fits bytes c) := by
  refine .bind (requireContentData_fits hm (by omega)) fun _ => .get_bind fun d hd => ?_
  have hrem := hd.1.remainingBufLen_eq
  have hhas := hd.2
  have hE : ∀ d', d' = d → d'.Fits bytes c := by
    rintro _ rfl
    exact hd.1
  refine .ite (fun _ => ?_) fun hcontent => ?_
  · rintro _ rfl
    exact hd.1
  · refine .bind (readBuf_triple hE _) fun bytes' => ?_
    rintro _ ⟨rfl, -⟩
    refine hd.1.consume ?_ fun hc => ?_
    · have := hd.1.head_le
      omega
    · have := hd.1.remainingPktContentLen_eq hc
      have := (hd.1.content hc).1
      omega

theorem findNullCp_le (cu : CodeUnit) (part bytes : List UInt8) :
    ∀ n, (findNullCp cu part bytes).1 = some n → n ≤ bytes.length := by
  induction bytes generalizing part with
  | nil => simp [findNullCp]
  | cons b bytes ih =>
    intro n h
    simp only [findNullCp] at h
    split at h
    · split at h
      · cases h
        simp
      · obtain ⟨n', hn', rfl⟩ := Option.map_eq_some_iff.mp h
        exact Nat.succ_le_succ (ih _ n' hn')
    · obtain ⟨n', hn', rfl⟩ := Option.map_eq_some_iff.mp h
      exact Nat.succ_le_succ (ih _ n' hn')

theorem findNullCp_getD_le (cu : CodeUnit) (part bytes : List UInt8) :
    (findNullCp cu part bytes).1.getD bytes.length ≤ bytes.length := by
  cases hn : (findNullCp cu part bytes).1 with
  | none => exact le_rfl
  | some n => exact findNullCp_le cu part bytes n hn

theorem readSubstr_fits (hm : m.Over bytes) (cu : CodeUnit) (part : List UInt8) :
    Triple (Dec.Fits bytes c) (readSubstr m cu part) (fun _ => Dec.Fits bytes c)
      (Dec.Fits bytes c) := by
  refine .bind (requireContentData_fits hm (by omega)) fun _ => .get_bind fun d hd => ?_
  have hrem := hd.1.remainingBufLen_eq
  have hE : ∀ d', d' = d → d'.Fits bytes c := by
    rintro _ rfl
    exact hd.1
  refine .bind (readBuf_triple hE _) fun bytes' => .ite (fun _ => ?_) fun hcontent => ?_
  · rintro _ ⟨rfl, -⟩
    exact hd.1
  · rintro _ ⟨rfl, hlen⟩
    have hle := findNullCp_getD_le cu part bytes'
    refine hd.1.consume ?_ fun hc => ?_
    · have := hd.1.head_le
      omega
    · have := hd.1.remainingPktContentLen_eq hc
      have := (hd.1.content hc).1
      omega

/-- `s.2` bits remain to be skipped, up to the offset `target`. -/
def Skipping (bytes : List UInt8) (c : Prop) (target : ℕ) (s : Dec × ℕ) : Prop :=
  s.1.Fits bytes c ∧ s.1.headOffsetInCurPkt + s.2 = target ∧ (c → target ≤ s.1.expectedContentLen)

theorem requirePadding_fits (hm : m.Over bytes) (isContentData : Bool) :
    Triple (Dec.Fits bytes c) (if isContentData = true then requireContentData m 1
      else requireData m 1) (fun _ => Dec.Fits bytes c) (Dec.Fits bytes c) :=
  .ite (fun _ => (requireContentData_fits hm Nat.one_pos).mono fun _ _ h => h.1)
    fun _ => (requireData_fits hm Nat.one_pos).mono fun _ _ h => h.1

theorem Skipping.requests {target r : ℕ} (h : Skipping bytes c target (d, r)) (hd : d.Requests d')
    (hfits : d'.Fits bytes c) : Skipping bytes c target (d', r) := by
  refine ⟨hfits, ?_, ?_⟩
  · rw [hd]
    exact h.2.1
  · rw [hd]
    exact h.2.2

theorem Skipping.skip {target r len : ℕ} (h : Skipping bytes c target (d, r)) (hr : len ≤ r)
    (hbuf : len ≤ d.remainingBufLen) :
    Skipping bytes c target
      ({ d with headOffsetInCurPkt := d.headOffsetInCurPkt + len }, r - len) := by
  have hfits : d.Fits bytes c := h.1
  have htarget : d.headOffsetInCurPkt + r = target := h.2.1
  have hcontent : c → target ≤ d.expectedContentLen := h.2.2
  have hrem := hfits.remainingBufLen_eq
  have hhead := hfits.head_le
  refine ⟨hfits.consume (by omega) fun hc => ?_, ?_, hcontent⟩
  · have := hcontent hc
    omega
  · simp only
    omega

theorem skipLoop_fits (hm : m.Over bytes) (isContentData : Bool) (target n : ℕ) :
    Triple (Skipping bytes c target) (skipLoop m isContentData n)
      (fun _ s => Skipping bytes c target s ∧ s.2 = 0) (Skipping bytes c target) := by
  induction n with
  | zero =>
    rintro ⟨d, r⟩ h
    simp only [skipLoop]
    by_cases h0 : r = 0
    · subst h0
      simp only [if_true, and_true]
      exact h
    · simp only [h0, if_false]
      exact h
  | succ n ih =>
    rintro ⟨d, r⟩ h
    simp only [skipLoop]
    by_cases h0 : r = 0
    · subst h0
      simp only [if_true, and_true]
      exact h
    simp only [h0, if_false]
    have hrequests := requirePadding_requests m isContentData
    have hfits := requirePadding_fits (c := c) hm isContentData
    cases hd : (if isContentData = true then requireContentData m 1 else requireData m 1) d with
    | error e d₁ => exact h.requests (hrequests.error hd) (hfits.error h.1 hd)
    | ok _ d₁ =>
      have h₁ := h.requests (hrequests.ok hd) (hfits.ok h.1 hd)
      by_cases hlen : min r d₁.remainingBufLen = 0
      · simp only [hlen, if_true]
        exact h₁
      · simp only [hlen, if_false]
        exact ih _ (h₁.skip (Nat.min_le_left _ _) (Nat.min_le_right _ _))

end

/-! ## Parts of a packet -/

/-- From its `PktInfoItem` to its `PktContentEndItem`, and then to its `PktEndItem` -/
inductive PktPart
  | outside
  | content
  | padding
  deriving DecidableEq, Repr

def PktPart.next : PktPart → Item → PktPart
  | _, .pktInfo _ => .content
  | _, .pktContentEnd => .padding
  | _, .pktEnd => .outside
  | part, _ => part

/-- Where the current packet stands once `items` are returned -/
def pktPart (items : List Item) : PktPart := items.foldl PktPart.next .outside

/-! ## Tasks keep the head within the content -/

section
variable {bytes : List UInt8} {c : Bool} {m : Medium} {d : Dec} {phase : Phase} {rest : List Task}
  {task : Task} {align : ℕ} {len val : ℕ} {sfc : ScalarFc}

def Fc.rolesOk (c : Bool) (fc : Fc) : Bool := !c || fc.hasNoPktLenRole

def SkipFits (c : Bool) (a : Agenda) : Prop :=
  ∀ len rest, a.tasks = .skip len :: rest → c = true →
    a.dec.headOffsetInCurPkt + len ≤ a.dec.expectedContentLen

def Keeps (bytes : List UInt8) (c : Bool) : Answer → Prop
  | .continue a => a.dec.Fits bytes (c = true)
  | .item i a => a.dec.Fits bytes (c = true) ∧ ∀ part, PktPart.next part i = part
  | .again a => a.dec.Fits bytes (c = true) ∧ SkipFits c a
  | .ended | .failed _ => True

theorem SkipFits.of_not_skip (h : ∀ len, task ≠ .skip len) :
    SkipFits c ⟨d, task :: rest, phase⟩ := by
  intro len rest' htasks
  cases htasks
  exact absurd rfl (h len)

theorem tryDec_keeps {α : Type} {q : DecM α} {k : α → Dec → Answer} (hd : d.Fits bytes (c = true))
    (htask : ∀ len, task ≠ .skip len)
    (hq : Triple (Dec.Fits bytes (c = true)) q (fun _ => Dec.Fits bytes (c = true))
      (Dec.Fits bytes (c = true)))
    (hk : ∀ a d', d'.Fits bytes (c = true) → Keeps bytes c (k a d')) :
    Keeps bytes c (tryDec q (task :: rest) phase d k) :=
  tryDec_rule (fun a d' h => hk a d' (hq.ok hd h))
    (fun _ h => ⟨hq.error hd h, .of_not_skip htask⟩) fun _ => trivial

theorem Dec.Fits.skipping_align (h : d.Fits bytes (c = true))
    (hle : d.alignLen align ≤ d.remainingPktContentLen) :
    Skipping bytes (c = true) (d.headOffsetInCurPkt + d.alignLen align)
      (d, d.alignLen align) := by
  refine ⟨h, rfl, fun hc => ?_⟩
  have hrem := h.remainingPktContentLen_eq hc
  have hhead := (h.content hc).1
  simp only
  omega

theorem tryAlign_keeps (hm : m.Over bytes) {tasks : List Task} {k : Dec → Answer}
    (hd : d.Fits bytes (c = true)) (hk : ∀ d', d'.Fits bytes (c = true) → Keeps bytes c (k d')) :
    Keeps bytes c (tryAlign m align tasks phase d k) := by
  refine tryAlign_rule (fun d' r hle h => hk d' ?_) (fun d' r hle h => ?_) fun _ => trivial
  · obtain hle | rfl := hle
    · exact ((skipLoop_fits hm true _ _).ok (hd.skipping_align hle) h).1.1
    · exact hd
  · have hskip := (skipLoop_fits hm true _ _).error (hd.skipping_align hle) h
    refine ⟨hskip.1, fun len rest htasks hc => ?_⟩
    cases htasks
    exact Nat.le_trans (Nat.le_of_eq hskip.2.1) (hskip.2.2 hc)

theorem handleUIntFieldRole_fits {role : UIntFieldRole}
    (hrole : c = true → role ≠ .pktTotalLen ∧ role ≠ .pktContentLen)
    (hd : d.Fits bytes (c = true)) :
    (handleUIntFieldRole role len val d).Fits bytes (c = true) := by
  cases role with
  | pktTotalLen =>
    exact ⟨hd.1, hd.2, hd.3, hd.4, hd.5, hd.6, fun hc => absurd rfl (hrole hc).1⟩
  | pktContentLen =>
    exact ⟨hd.1, hd.2, hd.3, hd.4, hd.5, hd.6, fun hc => absurd rfl (hrole hc).2⟩
  | _ => exact ⟨hd.1, hd.2, hd.3, hd.4, hd.5, hd.6, hd.7⟩

theorem handleRoles_fits {roles : List UIntFieldRole}
    (hroles : c = true → ∀ role ∈ roles, role ≠ .pktTotalLen ∧ role ≠ .pktContentLen)
    (hd : d.Fits bytes (c = true)) : (handleRoles roles len val d).1.Fits bytes (c = true) := by
  unfold handleRoles
  generalize (none : Option Item) = i
  induction roles generalizing d i with
  | nil => exact hd
  | cons role roles ih =>
    exact ih (fun hc role' hmem => hroles hc role' (List.mem_cons_of_mem _ hmem))
      (handleUIntFieldRole_fits (fun hc => hroles hc role List.mem_cons_self) hd) _

theorem afterUInt_keeps {len : ℕ} {val : ℤ} {i : Item} (hi : ∀ part, PktPart.next part i = part)
    (hsfc : (Fc.scalar sfc).all (Fc.rolesOk c) = true) (hd : d.Fits bytes (c = true)) :
    Keeps bytes c (afterUInt sfc len val i rest phase d) := by
  refine ⟨handleRoles_fits (fun hc role hmem => ?_) ?_, hi⟩
  · subst hc
    simp only [Fc.all, Fc.rolesOk, Bool.not_true, Bool.false_or, Fc.hasNoPktLenRole,
      List.all_eq_true, decide_eq_true_eq] at hsfc
    exact hsfc role hmem
  · exact ⟨hd.1, hd.2, hd.3, hd.4, hd.5, hd.6, hd.7⟩

theorem readScalar_keeps (hm : m.Over bytes) (hsfc : (Fc.scalar sfc).all (Fc.rolesOk c) = true)
    (hd : d.Fits bytes (c = true)) : Keeps bytes c (readScalar m sfc rest phase d) := by
  have hsave {d' : Dec} (h : d'.Fits bytes (c = true)) (indexes : List ℕ) (val : ℤ) :
      (saveKeyVal indexes val d').Fits bytes (c = true) :=
    ⟨h.1, h.2, h.3, h.4, h.5, h.6, h.7⟩
  cases sfc with
  | fixedLen kind fc roles indexes =>
    refine tryDec_keeps hd (by simp) (readFixedLenInt_fits hm _ _ _) fun val d' h => ?_
    split
    · exact afterUInt_keeps (fun _ => rfl) hsfc h
    · unfold afterFixedLen
      split
      · split
        · split
          · exact ⟨hsave h _ _, fun _ => rfl⟩
          · trivial
        · trivial
      · exact ⟨h, fun _ => rfl⟩
  | varLenInt isSigned roles indexes =>
    refine tryDec_keeps (q := fun d => varLenLoop m isSigned (varLenFuel d) d) hd (by simp)
      (fun d => varLenLoop_fits hm isSigned (varLenFuel d) d) fun r d' h => ?_
    cases isSigned with
    | true => exact ⟨hsave h _ _, fun _ => rfl⟩
    | false => exact afterUInt_keeps (fun _ => rfl) hsfc h

theorem doTask_keeps (hm : m.Over bytes) (hd : d.Fits bytes (c = true))
    (hskip : SkipFits c ⟨d, task :: rest, phase⟩) (h : TasksReady (Fc.rolesOk c) (task :: rest)) :
    Keeps bytes c (doTask m rest phase d task) := by
  obtain ⟨len, rfl, h⟩ | h := h.cases
  · have hskip : Skipping bytes (c = true) (d.headOffsetInCurPkt + len) (d, len) :=
      ⟨hd, rfl, fun hc => hskip len rest rfl hc⟩
    simp only [doTask]
    split <;> rename_i hs
    · exact ((skipLoop_fits hm true _ _).ok hskip hs).1.1
    · have hskip' := (skipLoop_fits hm true _ _).error hskip hs
      refine ⟨hskip'.1, fun len' rest' htasks hc => ?_⟩
      cases htasks
      exact Nat.le_trans (Nat.le_of_eq hskip'.2.1) (hskip'.2.2 hc)
    · trivial
  have htask : task.Ok (Fc.rolesOk c) := h task List.mem_cons_self
  cases task with
  | skip len => exact htask.elim
  | field fc =>
    cases fc with
    | scalar sfc => exact tryAlign_keeps hm hd fun d' h' => readScalar_keeps hm htask h'
    | _ =>
      refine tryAlign_keeps hm hd fun d' h' => ?_
      split
      · exact ⟨h', fun _ => rfl⟩
      · trivial
  | endField kind fc => exact ⟨hd, fun _ => rfl⟩
  | rawData | uuidSection =>
    exact tryDec_keeps hd (by simp) (readRawData_fits hm _) fun _ d' h' => ⟨h', fun _ => rfl⟩
  | substr cu part =>
    exact tryDec_keeps hd (by simp) (readSubstr_fits hm cu part) fun _ d' h' => ⟨h', fun _ => rfl⟩
  | uuidByte fc uuid =>
    exact tryAlign_keeps hm hd fun d' h' => tryDec_keeps h' (by simp)
      (readFixedLenInt_fits hm _ _ _) fun _ d'' h'' => ⟨h'', fun _ => rfl⟩
  | item i =>
    refine ⟨hd, fun part => ?_⟩
    have hextra : i.isExtra = true := htask
    cases i with
    | pktMagicNumber | metadataStreamUuid | defClkVal => rfl
    | _ => cases hextra

end

/-! ## Packets keep the head within their lengths -/

def Phase.part : Phase → PktPart
  | .tryBeginScope scope _ _ | .endScope scope _ =>
    if scope.isEventRecord then .content else .outside
  | .tryBeginEventRecord | .setEventRecordInfo _ | .endEventRecord _ | .endPktContent => .content
  | .skipEndPadding _ | .endPkt => .padding
  | _ => .outside

def Phase.Ok (d : Dec) : Phase → Prop
  | .init | .tryBeginPkt => d.bufOffsetInCurPkt = 0
  | .tryBeginScope scope fc _ =>
    scope.isEventRecord = true → fc.all StructFc.hasNoPktLenRole = true
  | .endPktContent => d.expectedTotalLen = infDataLen → d.headOffsetInCurPkt % 8 = 0
  | .skipEndPadding len => d.headOffsetInCurPkt + len = d.expectedTotalLen ∧
      d.expectedTotalLen % 8 = 0
  | .endPkt => d.headOffsetInCurPkt % 8 = 0 ∧
      (d.expectedTotalLen ≠ infDataLen → d.headOffsetInCurPkt = d.expectedTotalLen)
  | _ => True

structure Confined (bytes : List UInt8) (part : PktPart) (a : Agenda) : Prop where
  part_eq : a.phase.part = part
  fits : a.dec.Fits bytes (decide (part = .content) = true)
  tasks : TasksReady (Fc.rolesOk (part = .content)) a.tasks
  skip : SkipFits (part = .content) a
  phase : a.phase.Ok a.dec
  scope : a.tasks ≠ [] → ∃ scope head, a.phase = .endScope scope head

section
variable {bytes : List UInt8} {part : PktPart} {tc : TraceCls} {m : Medium} {d : Dec}
  {phase : Phase} {c : Prop} {head : ℕ} {scope : Scope}

theorem Confined.of_phase {d : Dec} (hpart : phase.part = part)
    (hfits : d.Fits bytes (decide (part = .content) = true)) (hphase : phase.Ok d) :
    Confined bytes part ⟨d, [], phase⟩ :=
  ⟨hpart, hfits, TasksOk.nil, fun _ _ h => (by cases h), hphase, fun h => absurd rfl h⟩

theorem Confined.doTask (hm : m.Over bytes) {task : Task} {rest : List Task}
    (h : Confined bytes part ⟨d, task :: rest, phase⟩) :
    (doTask m rest phase d task).Gives fun is a => Confined bytes (is.foldl PktPart.next part) a := by
  obtain ⟨hpart, hfits, htasks, hskip, -, hscope⟩ := h
  have hleaves : Leaves (Fc.rolesOk (part = .content)) phase (ItemSeq.doTask m rest phase d task) :=
    doTask_tasks htasks
  have hkeeps := doTask_keeps hm hfits hskip htasks
  obtain ⟨scope, head, rfl⟩ := hscope (by simp)
  have hnoskip {a : Agenda} (h : TasksOk (Fc.rolesOk (part = .content)) a.tasks) :
      SkipFits (part = .content) a := by
    intro len rest' htasks' _
    exact (h (.skip len) (by rw [htasks']; exact List.mem_cons_self)).elim
  cases hr : ItemSeq.doTask m rest (.endScope scope head) d task with
  | «continue» a =>
    rw [hr] at hleaves hkeeps
    obtain ⟨d', tasks', phase'⟩ := a
    obtain ⟨rfl, hok⟩ := hleaves
    exact ⟨hpart, hkeeps, .of_ok hok, hnoskip hok, trivial, fun _ => ⟨scope, head, rfl⟩⟩
  | item i a =>
    rw [hr] at hleaves hkeeps
    obtain ⟨d', tasks', phase'⟩ := a
    obtain ⟨rfl, hok⟩ := hleaves
    simp only [Reply.Gives, List.foldl_cons, List.foldl_nil, hkeeps.2]
    exact ⟨hpart, hkeeps.1, .of_ok hok, hnoskip hok, trivial, fun _ => ⟨scope, head, rfl⟩⟩
  | again a =>
    rw [hr] at hleaves hkeeps
    obtain ⟨d', tasks', phase'⟩ := a
    obtain ⟨rfl, hok⟩ := hleaves
    exact ⟨hpart, hkeeps.1, hok, hkeeps.2, trivial, fun _ => ⟨scope, head, rfl⟩⟩
  | ended | failed => trivial

theorem Dec.Fits.weaken {c c' : Prop} (h : d.Fits bytes c) (hc : c' → c) : d.Fits bytes c' :=
  ⟨h.1, h.2, h.3, h.4, h.5, h.6, fun hc' => h.7 (hc hc')⟩

theorem Dec.Fits.congr {d' : Dec} (h : d.Fits bytes c)
    (hpkt : d'.curPktOffsetInItemSeq = d.curPktOffsetInItemSeq) (hbuf : d'.buf = d.buf)
    (hoffset : d'.bufOffsetInCurPkt = d.bufOffsetInCurPkt)
    (hhead : d'.headOffsetInCurPkt = d.headOffsetInCurPkt)
    (htotal : d'.expectedTotalLen = d.expectedTotalLen)
    (hcontent : d'.expectedContentLen = d.expectedContentLen) : d'.Fits bytes c := by
  constructor
  · rw [hpkt]
    exact h.1
  · rw [hoffset]
    exact h.2
  · rw [hoffset, hhead]
    exact h.3
  · rw [hoffset, hhead, hbuf]
    exact h.4
  · rw [hpkt, hoffset, hbuf]
    exact h.5
  · rw [hpkt, hoffset, hbuf]
    exact h.6
  · rw [htotal, hcontent, hhead]
    exact h.7

theorem resetForNewPkt_fits (h : d.Fits bytes c) (hbuf : d.bufOffsetInCurPkt = 0) :
    (resetForNewPkt d).Fits bytes False where
  pktOffset_mod := h.pktOffset_mod
  bufOffset_mod := h.bufOffset_mod
  bufOffset_le := Nat.le_of_eq hbuf
  head_le := Nat.zero_le _
  buf_le := h.buf_le
  buf_eq := h.buf_eq
  content := False.elim

theorem endReadPkt_fits (h : d.Fits bytes c) (hphase : Phase.endPkt.Ok d) :
    (endReadPkt d).Fits bytes False := by
  obtain ⟨hmod, htotal⟩ := hphase
  have h₁ := h.pktOffset_mod
  have h₂ := h.bufOffset_mod
  have h₃ := h.bufOffset_le
  have h₄ := h.head_le
  have h₅ := h.buf_le
  by_cases hinf : d.expectedTotalLen = infDataLen
  · refine ⟨?_, rfl, le_rfl, Nat.zero_le _, ?_, ?_, False.elim⟩ <;>
      simp only [endReadPkt, Dec.headOffsetInItemSeq, hinf, if_true, List.length_nil, List.take_zero]
    · omega
    · omega
  · have hsub : safeSub d.expectedTotalLen d.bufOffsetInCurPkt =
        d.headOffsetInCurPkt - d.bufOffsetInCurPkt := by
      rw [← htotal hinf, safeSub_of_le h₃]
    refine ⟨?_, rfl, le_rfl, Nat.zero_le _, ?_, ?_, False.elim⟩ <;>
      simp only [endReadPkt, Dec.headOffsetInItemSeq, hinf, if_false, hsub, List.length_drop]
    · omega
    · omega
    · have hoffset : (d.curPktOffsetInItemSeq + d.headOffsetInCurPkt + 0) / 8 =
          (d.curPktOffsetInItemSeq + d.bufOffsetInCurPkt) / 8 +
            (d.headOffsetInCurPkt - d.bufOffsetInCurPkt) / 8 := by omega
      rw [hoffset]
      conv_lhs => rw [h.buf_eq]
      rw [List.drop_take, List.drop_drop]

theorem hasEventRecord_fits (hm : m.Over bytes) :
    Triple (Dec.Fits bytes True) (hasEventRecord m) (fun b d => d.Fits bytes True ∧
      (b = false → Phase.endPktContent.Ok d)) (Dec.Fits bytes True) := by
  refine .get_bind fun d hd => .ite (fun _ => .ite (fun h0 => ?_) fun _ => ?_) fun hcontent => ?_
  · rintro d rfl
    have hrem := hd.remainingBufLen_eq
    have hle := hd.head_le
    have hmod := hd.bufOffset_mod
    have htriple := tryHaveData_fits (c := True) hm Nat.one_pos d hd
    cases htry : tryHaveData m 1 d with
    | error e d' =>
      rw [htry] at htriple
      exact htriple
    | ok b d' =>
      rw [htry] at htriple
      refine ⟨htriple.1, fun _ _ => ?_⟩
      rw [(tryHaveData_requests m 1).ok htry]
      simp only
      omega
  · rintro _ rfl
    exact ⟨hd, fun h => by cases h⟩
  · rintro _ rfl
    exact ⟨hd, fun _ htotal => absurd ((hd.content trivial).2.2.2 htotal) hcontent⟩

theorem setPktInfo_fits {d' : Dec} (h : d.Fits bytes c)
    (hhead : d.headOffsetInCurPkt ≤ d.withPktLens.expectedContentLen)
    (hset : setPktInfo d = .ok () d') : d'.Fits bytes True := by
  obtain ⟨hd', hmod, hle⟩ := setPktInfo_ok hset
  have hinf : d.withPktLens.expectedTotalLen = infDataLen →
      d.withPktLens.expectedContentLen = infDataLen := by
    simp only [Dec.withPktLens]
    split <;> split <;> intro h <;> first | assumption | contradiction
  rw [hd']
  exact ⟨h.1, h.2, h.3, h.4, h.5, h.6, fun _ => ⟨hhead, hle, hmod, hinf⟩⟩

theorem tryBeginPkt_confined (hm : m.Over bytes) (hfits : d.Fits bytes False)
    (hbuf : d.bufOffsetInCurPkt = 0) :
    (doPhase tc m d .tryBeginPkt).Gives fun is a =>
      Confined bytes (is.foldl PktPart.next .outside) a := by
  have hreset := resetForNewPkt_fits hfits hbuf
  have hq : Triple (fun d => d.Fits bytes False ∧ d.bufOffsetInCurPkt = 0)
      (if (resetForNewPkt d).remainingBufLen = 0 then tryHaveData m 1 else pure true)
      (fun _ => Dec.Fits bytes False)
      (fun d => d.Fits bytes False ∧ d.bufOffsetInCurPkt = 0) := by
    refine .ite (fun _ => ?_) fun _ => .pure fun _ h => h.1
    intro d' hd'
    have htriple := tryHaveData_fits (c := False) hm Nat.one_pos d' hd'.1
    cases htry : tryHaveData m 1 d' with
    | ok b d'' =>
      rw [htry] at htriple
      exact htriple.1
    | error e d'' =>
      rw [htry] at htriple
      rw [tryHaveData_error htry]
      exact hd'
  refine tryDec_rule (fun hasData d' h => ?_) (fun d' h => ?_) fun _ => trivial
  · have hd' := hq.ok ⟨hreset, hbuf⟩ h
    cases hasData with
    | true => exact .of_phase rfl (hd'.weaken (by simp [PktPart.next])) trivial
    | false => trivial
  · have hd' := hq.error ⟨hreset, hbuf⟩ h
    exact .of_phase rfl (hd'.1.weaken (by simp)) hd'.2

theorem endPktContent_confined (hm : m.Over bytes) (hfits : d.Fits bytes True)
    (hphase : Phase.endPktContent.Ok d) (hend : ∀ a, doPhase tc m d .endPktContent ≠ .again a) :
    (doPhase tc m d .endPktContent).Gives fun is a =>
      Confined bytes (is.foldl PktPart.next .content) a := by
  simp only [doPhase] at hend ⊢
  by_cases hinf : d.expectedTotalLen = infDataLen
  · simp only [hinf, if_true]
    exact .of_phase rfl (hfits.weaken (by simp)) ⟨hphase hinf, fun h => absurd hinf h⟩
  simp only [hinf, if_false] at hend ⊢
  obtain ⟨hhead, hle, hmod, -⟩ := hfits.content trivial
  have hsub : safeSub d.expectedTotalLen d.headOffsetInCurPkt =
      d.expectedTotalLen - d.headOffsetInCurPkt := safeSub_of_le (by omega)
  rw [hsub] at hend ⊢
  have hskip : Skipping bytes False d.expectedTotalLen
      (d, d.expectedTotalLen - d.headOffsetInCurPkt) :=
    ⟨hfits.weaken False.elim, by simp only; omega, False.elim⟩
  have hreads := skipLoop_reads m false (d.expectedTotalLen - d.headOffsetInCurPkt)
  split
  · rename_i d' r hs
    obtain ⟨⟨hfits', htarget, -⟩, h0⟩ := (skipLoop_fits hm false _ _).ok hskip hs
    have htotal := (hreads.ok hs : d.Reads d').expectedTotalLen_eq
    simp only at htarget htotal h0
    exact .of_phase rfl (hfits'.weaken (by simp [PktPart.next])) ⟨by omega, fun _ => by omega⟩
  · rename_i hs
    exact absurd (by rw [hs]) (hend _)
  · trivial

theorem skipEndPadding_confined (hm : m.Over bytes) {len : ℕ} (hfits : d.Fits bytes False)
    (hphase : (Phase.skipEndPadding len).Ok d) :
    (doPhase tc m d (.skipEndPadding len)).Gives fun is a =>
      Confined bytes (is.foldl PktPart.next .padding) a := by
  obtain ⟨hlen, hmod⟩ := hphase
  have hskip : Skipping bytes False d.expectedTotalLen (d, len) := ⟨hfits, hlen, False.elim⟩
  have hreads := skipLoop_reads m false len
  simp only [doPhase]
  split
  · rename_i d' r hs
    obtain ⟨⟨hfits', htarget, -⟩, h0⟩ := (skipLoop_fits hm false _ _).ok hskip hs
    have htotal := (hreads.ok hs : d.Reads d').expectedTotalLen_eq
    simp only at htarget htotal h0
    exact .of_phase rfl (hfits'.weaken (by simp)) ⟨by omega, fun _ => by omega⟩
  · rename_i d' r hs
    obtain ⟨hfits', htarget, -⟩ := (skipLoop_fits hm false _ _).error hskip hs
    have htotal := (hreads.error hs : d.Reads d').expectedTotalLen_eq
    simp only at htarget htotal
    exact .of_phase rfl (hfits'.weaken (by simp)) ⟨by omega, by omega⟩
  · trivial

theorem afterScope_ok (h : Phase.afterScope d head scope = some phase) :
    phase.Ok d ∧ phase.part = if scope.isEventRecord then .content else .outside := by
  cases scope with
  | pktHeader | pktCtx | eventRecordHeader | eventRecordPayload =>
    cases h
    exact ⟨trivial, rfl⟩
  | commonEventRecordCtx =>
    simp only [Phase.afterScope] at h
    split at h
    · rename_i cls _
      cases h
      exact ⟨fun _ => cls.specCtx_roles, rfl⟩
    · cases h
      exact ⟨trivial, rfl⟩
  | specEventRecordCtx =>
    simp only [Phase.afterScope, Option.map_eq_some_iff] at h
    obtain ⟨cls, -, rfl⟩ := h
    exact ⟨fun _ => cls.payload_roles, rfl⟩

theorem tryBeginScope_confined {fc : Option StructFc}
    (h : Confined bytes part ⟨d, [], .tryBeginScope scope fc head⟩) :
    (doPhase tc m d (.tryBeginScope scope fc head)).Gives fun is a =>
      Confined bytes (is.foldl PktPart.next part) a := by
  obtain ⟨rfl, hfits, -, -, hphase, -⟩ := h
  cases fc with
  | none =>
    simp only [doPhase]
    cases hafter : Phase.afterScope d head scope with
    | none => trivial
    | some phase =>
      obtain ⟨hok, hpart⟩ := afterScope_ok hafter
      exact .of_phase hpart hfits hok
  | some fc =>
    refine ⟨rfl, hfits, .of_ok (.cons ?_ .nil), .of_not_skip (by simp), trivial,
      fun _ => ⟨scope, head, rfl⟩⟩
    have hpart : (List.foldl PktPart.next (Phase.tryBeginScope scope (some fc) head).part
        [Item.scopeBegin scope] = .content) ↔ scope.isEventRecord = true := by
      cases scope <;> simp [Phase.part, PktPart.next, Scope.isEventRecord]
    show fc.toFc.all _ = true
    cases hscope : scope.isEventRecord with
    | true =>
      rw [decide_eq_true (hpart.mpr hscope)]
      exact hphase hscope
    | false =>
      rw [decide_eq_false (fun h => by simp [hpart.mp h] at hscope)]
      exact Fc.all_of_forall (fun _ => rfl) _

theorem endScope_confined (h : Confined bytes part ⟨d, [], .endScope scope head⟩) :
    (doPhase tc m d (.endScope scope head)).Gives fun is a =>
      Confined bytes (is.foldl PktPart.next part) a := by
  obtain ⟨rfl, hfits, -, -, -, -⟩ := h
  simp only [doPhase]
  cases hafter : Phase.afterScope d head scope with
  | none => trivial
  | some phase =>
    obtain ⟨hok, hpart⟩ := afterScope_ok hafter
    exact .of_phase hpart hfits hok

theorem Confined.doPhase (hm : m.Over bytes) (h : Confined bytes part ⟨d, [], phase⟩)
    (hinfo : phase = .setPktInfo → d.headOffsetInCurPkt ≤ d.withPktLens.expectedContentLen)
    (hend : phase = .endPktContent → ∀ a, ItemSeq.doPhase tc m d phase ≠ .again a) :
    (ItemSeq.doPhase tc m d phase).Gives fun is a =>
      Confined bytes (is.foldl PktPart.next part) a := by
  have h' := h
  obtain ⟨rfl, hfits, -, -, hphase, -⟩ := h'
  cases phase with
  | init => exact .of_phase rfl hfits hphase
  | tryBeginPkt => exact tryBeginPkt_confined hm (hfits.weaken False.elim) hphase
  | beginPktContent => exact .of_phase rfl hfits (fun h => by cases h)
  | endPktContent =>
    exact endPktContent_confined hm (hfits.weaken fun _ => rfl) hphase (hend rfl)
  | skipEndPadding len => exact skipEndPadding_confined hm (hfits.weaken False.elim) hphase
  | endPkt => exact .of_phase rfl ((endReadPkt_fits hfits hphase).weaken (by simp [PktPart.next])) rfl
  | done => trivial
  | tryBeginScope scope fc head => exact tryBeginScope_confined h
  | endScope scope head => exact endScope_confined h
  | setDataStreamInfo =>
    refine tryDec_rule (fun _ d' hset => ?_) (fun d' hset => ?_) fun _ => trivial
    · have hd' := (setDataStreamInfo_moves tc).ok hset
      have hfits' : d'.Fits bytes (decide (PktPart.outside = .content) = true) := by
        refine hfits.congr ?_ ?_ ?_ ?_ ?_ ?_ <;> rw [hd']
      refine .of_phase ?_ hfits' ?_ <;> cases d'.dataStreamInfo.cls
      · rfl
      · rfl
      · trivial
      · exact fun h => by cases h
    · have hd' := (setDataStreamInfo_moves tc).error hset
      have hfits' : d'.Fits bytes (decide (PktPart.outside = .content) = true) := by
        refine hfits.congr ?_ ?_ ?_ ?_ ?_ ?_ <;> rw [hd']
      exact .of_phase rfl hfits' trivial
  | setPktInfo =>
    refine tryDec_rule (fun _ d' hset => ?_) (fun d' hset => ?_) fun _ => trivial
    · exact .of_phase rfl ((setPktInfo_fits hfits (hinfo rfl) hset).weaken fun _ => trivial) trivial
    · exact absurd hset (setPktInfo_never _ _)
  | tryBeginEventRecord =>
    have hfits : d.Fits bytes True := hfits.weaken fun _ => rfl
    refine tryDec_rule (fun hasEventRecord d' hd' => ?_) (fun d' hd' => ?_) fun _ => trivial
    · obtain ⟨hfits', hok⟩ := (hasEventRecord_fits hm).ok hfits hd'
      cases hasEventRecord with
      | true =>
        simp only [if_true]
        cases d'.dataStreamInfo.cls with
        | none => trivial
        | some cls =>
          exact .of_phase rfl (hfits'.weaken fun _ => trivial) fun _ => cls.eventRecordHeader_roles
      | false => exact .of_phase rfl (hfits'.weaken fun _ => trivial) (hok rfl)
    · have hfits' := (hasEventRecord_fits hm).error hfits hd'
      exact .of_phase rfl (hfits'.weaken fun _ => trivial) trivial
  | setEventRecordInfo head =>
    refine tryDec_rule (fun cls d' hset => ?_) (fun d' hset => ?_) fun _ => trivial
    · have hd' := (setEventRecordInfo_ok hset).2
      have hfits' : d'.Fits bytes (decide (PktPart.content = .content) = true) := by
        refine hfits.congr ?_ ?_ ?_ ?_ ?_ ?_ <;> rw [hd']
      exact .of_phase rfl hfits' fun _ => cls.commonEventRecordCtx_roles
    · exact absurd hset (setEventRecordInfo_never _ _)
  | endEventRecord head =>
    simp only [ItemSeq.doPhase]
    split
    · trivial
    · exact .of_phase rfl hfits trivial

end

/-! ## Runs -/

/-- The medium gives access to the bytes, the packet header and context don't pass the expected
content length, and the end of the content isn't interrupted. -/
structure Confining (tc : TraceCls) (bytes : List UInt8) (s : Iter) (m : Medium) : Prop where
  isOver : m.Over bytes
  pktInfo : s.state = .setPktInfoItem → s.withPktLens.expectedContentLen ≠ infDataLen →
    s.headOffsetInCurPkt ≤ s.withPktLens.expectedContentLen
  endReadPktContent : s.state = .endReadPktContent → ∀ s', handleState tc m s ≠ .error .tryAgain s'

theorem toReply_again {r : EStateM.Result Exc Iter Reaction} {s : Iter}
    (h : toReply r = .again s) : r = .error .tryAgain s := by
  unfold toReply at h
  split at h
  · cases h
  · split at h <;> cases h
  · cases h
    rfl
  · cases h

theorem Rel.atPhase {s : Iter} {d : Dec} {phase : Phase} (h : Rel s ⟨d, [], phase⟩) :
    d = s.toDec ∧ AtPhase s phase := by
  cases h with
  | phase h => exact ⟨rfl, h⟩
  | task h => cases h

theorem Confining.step {tc : TraceCls} {bytes : List UInt8} (hbytes : 8 * bytes.length ≤ infDataLen)
    {s : Iter} {m : Medium} (hm : Confining tc bytes s m) {a : Agenda} (hrel : Rel s a)
    {part : PktPart} (h : Confined bytes part a) :
    (a.reply tc m).Gives fun is a => Confined bytes (is.foldl PktPart.next part) a := by
  obtain ⟨d, tasks, phase⟩ := a
  cases tasks with
  | cons task rest => exact h.doTask hm.isOver
  | nil =>
    obtain ⟨rfl, hat⟩ := hrel.atPhase
    refine h.doPhase hm.isOver ?_ ?_
    · rintro rfl
      cases hat with
      | setPktInfo hstate =>
        by_cases hinf : s.withPktLens.expectedContentLen = infDataLen
        · have h₁ := h.fits.head_le
          have h₂ := h.fits.buf_le
          simp only at h₁ h₂ ⊢
          omega
        · exact hm.pktInfo hstate hinf
    · rintro rfl a hagain
      cases hat with
      | endPktContent hstate =>
        have hsim := reply_sim tc m hrel
        rw [show Agenda.reply tc m ⟨s.toDec, [], .endPktContent⟩ = .again a from hagain] at hsim
        generalize hr : reply tc m s = r at hsim
        cases hsim
        exact hm.endReadPktContent hstate _ (toReply_again hr)

theorem Steps.confined {tc : TraceCls} {bytes : List UInt8}
    (hbytes : 8 * bytes.length ≤ infDataLen) {s s' : Iter} {items items' : List Item}
    (h : Steps (reply tc) (Confining tc bytes) s items' s')
    (hs : ∃ a, Rel s a ∧ Confined bytes (pktPart items) a) :
    ∃ a, Rel s' a ∧ Confined bytes (pktPart (items ++ items')) a := by
  refine Steps.invariant (I := fun is s => ∃ a, Rel s a ∧ Confined bytes (pktPart is) a) ?_ h hs
  rintro m s is hm ⟨a, hrel, hconf⟩
  have hsim := reply_sim tc m hrel
  have hgives := hm.step hbytes hrel hconf
  generalize reply tc m s = r at hsim
  generalize a.reply tc m = r' at hsim hgives
  cases hsim with
  | «continue» h | again h | item _ h =>
    exact ⟨_, h, by simpa [Reply.Gives, pktPart] using hgives⟩
  | ended | failed => trivial

theorem confined_start (bytes : List UInt8) :
    ∃ a, Rel {} a ∧ Confined bytes (pktPart []) a :=
  ⟨_, .phase (.init rfl), .of_phase rfl ⟨rfl, rfl, le_rfl, le_rfl, Nat.zero_le _, rfl,
    fun h => by cases h⟩ rfl⟩

theorem Confined.head_le {bytes : List UInt8} (hbytes : 8 * bytes.length ≤ infDataLen)
    {part : PktPart} {a : Agenda} (h : Confined bytes part a) (hpart : part ≠ .outside) :
    a.dec.headOffsetInCurPkt ≤ a.dec.expectedTotalLen := by
  cases part with
  | outside => exact absurd rfl hpart
  | content =>
    obtain ⟨hhead, hle, -⟩ := h.fits.content rfl
    exact Nat.le_trans hhead hle
  | padding =>
    have hphase := h.phase
    have hpart := h.part_eq
    cases hp : a.phase with
    | skipEndPadding len =>
      rw [hp] at hphase
      exact hphase.1 ▸ Nat.le_add_right _ _
    | endPkt =>
      rw [hp] at hphase
      by_cases hinf : a.dec.expectedTotalLen = infDataLen
      · have h₁ := h.fits.head_le
        have h₂ := h.fits.buf_le
        omega
      · exact Nat.le_of_eq (hphase.2 hinf)
    | tryBeginScope scope | endScope scope =>
      rw [hp] at hpart
      cases scope <;> cases hpart
    | _ =>
      rw [hp] at hpart
      cases hpart

/-- Until its `PktContentEndItem`, the head of a packet is within its expected content length, and
until its `PktEndItem` within its expected total length: no subtraction wraps. -/
theorem head_confined (tc : TraceCls) {bytes : List UInt8}
    (hbytes : 8 * bytes.length ≤ infDataLen) {items : List Item} {s : Iter}
    (h : Steps (reply tc) (Confining tc bytes) {} items s) :
    s.headOffsetInCurPkt ≤ s.bufOffsetInCurPkt + 8 * s.buf.length ∧
      (pktPart items = .content → s.headOffsetInCurPkt ≤ s.expectedContentLen) ∧
      (pktPart items ≠ .outside → s.headOffsetInCurPkt ≤ s.expectedTotalLen ∧
        s.bufOffsetInCurPkt ≤ s.expectedTotalLen) := by
  obtain ⟨a, hrel, hconf⟩ := Steps.confined hbytes h (confined_start bytes)
  have hdec : a.dec = s.toDec := by cases hrel <;> rfl
  have hfits := hconf.fits
  rw [hdec, List.nil_append] at hfits
  refine ⟨hfits.head_le, fun hpart => (hfits.content (by simp [hpart])).1, fun hpart => ?_⟩
  have hhead := hconf.head_le hbytes hpart
  rw [hdec] at hhead
  exact ⟨hhead, Nat.le_trans hfits.bufOffset_le hhead⟩

def withinContent (s : Iter) : Bool :=
  s.state != .setPktInfoItem || decide (s.headOffsetInCurPkt ≤ s.withPktLens.expectedContentLen)

theorem head_confined_padded : ∃ items s,
    Steps (reply paddedTraceCls) (Confining paddedTraceCls [24, 32, 7, 0]) {} items s ∧
      pktPart items = .content ∧ s.headOffsetInCurPkt ≤ s.expectedContentLen := by
  have heval : evalStepsCheck (reply paddedTraceCls) paddedMedium withinContent 20 {}
      (fun items _ => decide (pktPart items = .content)) = true := by decide +kernel
  have hP (s : Iter) (hs : withinContent s = true) :
      Confining paddedTraceCls [24, 32, 7, 0] s paddedMedium := by
    refine ⟨Medium.ofBytes_over _ _, fun hstate _ => ?_, fun hstate s' => ?_⟩
    · simpa [withinContent, hstate] using hs
    · simp only [handleState, hstate]
      exact handleEndReadPktContent_never (Medium.ofBytes_ready _ _) s s'
  obtain ⟨items, s, hsteps, hpart⟩ := evalStepsCheck_sound hP heval
  have hpart := of_decide_eq_true hpart
  exact ⟨items, s, hsteps, hpart, (head_confined paddedTraceCls (by decide) hsteps).2.1 hpart⟩

theorem shortContent_payload_hasOpts : (Fc.struct 8 [byteFc []]).all Fc.hasOpts = true := by decide

def shortContentTraceCls : TraceCls where
  pktHeaderFc := none
  dataStreamClss := [{
    id := 0
    pktCtxFc := some { align := 8, members := [byteFc [.pktTotalLen], byteFc [.pktContentLen]] }
    eventRecordHeaderFc := none
    commonEventRecordCtxFc := none
    hasDefClkCls := false
    eventRecordClss := [{
      id := 0
      specCtxFc := none
      payloadFc := some { align := 8, members := [byteFc []], hasOpts := shortContent_payload_hasOpts } }] }]

def shortContentMedium : Medium := .ofBytes [32, 8, 7, 0] 4

/-- The expected content length, 8 bits, is less than the 16 bits of the packet context. -/
theorem setPktInfo_accepts_short_content : ∃ items s,
    Steps (reply shortContentTraceCls) (Alone shortContentMedium) {} items s ∧
      pktPart items = .content ∧ s.expectedContentLen < s.headOffsetInCurPkt := by
  have heval : evalStepsCheck (reply shortContentTraceCls) shortContentMedium
      (fun _ => true) 12 {} (fun items s => decide (pktPart items = .content ∧
        s.expectedContentLen < s.headOffsetInCurPkt)) = true := by decide +kernel
  obtain ⟨items, s, hsteps, hs⟩ :=
    evalStepsCheck_sound (P := Alone shortContentMedium) (fun _ _ => rfl) heval
  exact ⟨items, s, hsteps, of_decide_eq_true hs⟩

end Babeltrace.ItemSeq
