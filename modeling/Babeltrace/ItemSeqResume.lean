import Babeltrace.ItemSeqPadding
import Babeltrace.ItemSeqRun

/-!
# Resumption of the item sequence iterator

A handler which `bt2c::TryAgain` interrupts leaves a state from which the iterator goes on as if
nothing had happened, except the one which ends the content of a packet: it already left its state
when it skips the padding.
-/
namespace Babeltrace.ItemSeq
open Machine Program

/-- `m` answers as `base` does, or throws `bt2c::TryAgain`. -/
def Medium.Interrupts (base m : Medium) : Prop :=
  ∀ offset minSize, m offset minSize = base offset minSize ∨ m offset minSize = .tryAgain

section
variable {base m : Medium} (hm : base.Interrupts m)
include hm

theorem tryHaveData_retries (len : ℕ) :
    Retries .tryAgain (tryHaveData m len) (tryHaveData base len) := by
  intro d
  unfold tryHaveData
  split
  · exact .inl rfl
  · obtain h | h := hm (d.curPktOffsetInItemSeq / 8 + d.headOffsetInCurPkt / 8)
      ((len + 7 + d.headOffsetInCurPkt % 8) / 8)
    · exact .inl (by simp only [h])
    · exact .inr (by simp only [h])

theorem requireData_retries (len : ℕ) :
    Retries .tryAgain (requireData m len) (requireData base len) :=
  (tryHaveData_retries hm len).bind _

theorem requireContentData_retries (len : ℕ) :
    Retries .tryAgain (requireContentData m len) (requireContentData base len) := by
  unfold requireContentData
  refine Retries.get_bind fun d => ?_
  split
  · exact .refl _ _
  · exact requireData_retries hm len

theorem readFixedLenInt_retries (isSigned : Bool) (p : ReadParams) (fc : FixedLenBitArrayFc) :
    Retries .tryAgain (readFixedLenInt m isSigned p fc) (readFixedLenInt base isSigned p fc) :=
  (requireContentData_retries hm _).bind _

theorem readRawData_retries (remaining : ℕ) :
    Retries .tryAgain (readRawData m remaining) (readRawData base remaining) :=
  (requireContentData_retries hm _).bind _

theorem readSubstr_retries (cu : CodeUnit) (part : List UInt8) :
    Retries .tryAgain (readSubstr m cu part) (readSubstr base cu part) :=
  (requireContentData_retries hm _).bind _

theorem hasEventRecord_retries : Retries .tryAgain (hasEventRecord m) (hasEventRecord base) := by
  unfold hasEventRecord
  refine Retries.get_bind fun d => ?_
  exact .ite (.ite (tryHaveData_retries hm 1) (.refl _ _)) (.refl _ _)

end

/-! ## Padding -/

theorem skipLoop_fuel (m : Medium) (c : Bool) (n : ℕ) :
    ∀ r d, r ≤ n → skipLoop m c n (d, r) = skipLoop m c r (d, r) := by
  induction n using Nat.strong_induction_on with
  | _ n ih =>
    intro r d hr
    cases n with
    | zero => rw [Nat.le_zero.mp hr]
    | succ n =>
      cases r with
      | zero => simp [skipLoop]
      | succ r =>
        simp only [skipLoop]
        split
        · rfl
        · split
          · rfl
          · rename_i d' _
            split
            · rfl
            · rename_i hpos
              rw [ih n (by omega) _ _ (by omega), ih r (by omega) _ _ (by omega)]

section
variable {base m : Medium} (hm : base.Interrupts m)
include hm

theorem skipLoop_resume (c : Bool) (n : ℕ) :
    ∀ r d, r ≤ n → skipLoop m c n (d, r) = skipLoop base c n (d, r) ∨
      ∃ d' r', skipLoop m c n (d, r) = .error .tryAgain (d', r') ∧
        skipLoop base c r' (d', r') = skipLoop base c n (d, r) := by
  induction n with
  | zero => exact fun _ _ _ => .inl rfl
  | succ n ih =>
    intro r d hr
    have hreq : Retries .tryAgain
        (if c then requireContentData m 1 else requireData m 1)
        (if c then requireContentData base 1 else requireData base 1) :=
      .ite (requireContentData_retries hm 1) (requireData_retries hm 1)
    by_cases h0 : r = 0
    · exact .inl (by simp [skipLoop, h0])
    · obtain h | h := hreq d
      · cases hb : (if c then requireContentData base 1 else requireData base 1) d with
        | error e d₁ => exact .inl (by simp only [skipLoop, h0, if_false, h, hb])
        | ok _ d₁ =>
          simp only [skipLoop, h0, if_false, h, hb]
          split
          · exact .inl rfl
          · exact ih _ _ (by omega)
      · refine .inr ⟨d, r, by simp only [skipLoop, h0, if_false, h], ?_⟩
        exact (skipLoop_fuel base c (n + 1) r d hr).symm

end

variable {base m : Medium} {s s₁ : Iter} {tc : TraceCls}

theorem alignHead_resume (hm : base.Interrupts m) (align : ℕ) (s : Iter) :
    alignHead m align s = alignHead base align s ∨
      ∃ s₁, alignHead m align s = .error .tryAgain s₁ ∧ s₁.state = .skipContentPadding ∧
        skipPadding base true s₁ = alignHead base align s := by
  rw [alignHead_apply, alignHead_apply]
  split
  · exact .inl rfl
  · split
    · exact .inl rfl
    · simp only [skipPadding]
      obtain h | ⟨d', r', h, hb⟩ := skipLoop_resume hm true _ _ (s.startAlign align).toDec le_rfl
      · exact .inl (by rw [h])
      · refine .inr ⟨{ s.startAlign align with toDec := d', remainingLenToSkip := r' }, ?_, rfl, ?_⟩
        · rw [h]
        · simp only [hb]

/-! ## Variable-length integers -/

theorem appendVarLenIntByte_continues {isSigned : Bool} {byte : ℕ} {d d' : Dec}
    (hbyte : 128 ≤ byte) (h : appendVarLenIntByte isSigned byte d = .ok () d') :
    d'.curVarLenIntLen = d.curVarLenIntLen + 7 ∧ d'.curVarLenIntLen ≤ 63 ∧
      d'.headOffsetInCurPkt = d.headOffsetInCurPkt + 8 := by
  simp only [appendVarLenIntByte, bind_apply, get_apply, hbyte, true_or, and_true] at h
  by_cases hlen : 63 < d.curVarLenIntLen + 7
  · simp [hlen, failWith] at h
  · simp only [hlen, if_false, consumeAvailData] at h
    cases h
    exact ⟨rfl, Nat.not_lt.mp hlen, rfl⟩

theorem alignLen_add_eight {d d' : Dec}
    (h : d'.headOffsetInCurPkt = d.headOffsetInCurPkt + 8) : d'.alignLen 8 = d.alignLen 8 := by
  have hup : alignUp (d.headOffsetInCurPkt + 8) 8 = alignUp d.headOffsetInCurPkt 8 + 8 := by
    have height := fun val => alignUp_two_pow val 3
    norm_num at height
    rw [height, height]
    omega
  have hle := le_alignUp d.headOffsetInCurPkt 8
  simp only [Dec.alignLen, safeSub, h, hup]
  rw [if_pos (by omega), if_pos hle]
  omega

theorem varLenLoop_resume (hm : base.Interrupts m) (isSigned : Bool) (n : ℕ) :
    ∀ d, varLenFuel d = n → varLenLoop m isSigned n d = varLenLoop base isSigned n d ∨
      ∃ d', varLenLoop m isSigned n d = .error .tryAgain d' ∧
        varLenLoop base isSigned (varLenFuel d') d' = varLenLoop base isSigned n d ∧
        d'.alignLen 8 = d.alignLen 8 := by
  induction n with
  | zero => exact fun _ _ => .inl rfl
  | succ n ih =>
    intro d hfuel
    obtain h | h := requireContentData_retries hm 8 d
    · cases hb : requireContentData base 8 d with
      | error e d₁ => exact .inl (by simp only [varLenLoop, bind_apply, h, hb])
      | ok _ d₁ =>
        obtain ⟨hmoved, hhead⟩ := requireContentData_moved hb
        have hlen₁ : d₁.curVarLenIntLen = d.curVarLenIntLen := by rw [hmoved]
        cases hr : readBuf 1 d₁ with
        | error e d₂ => exact .inl (by simp only [varLenLoop, bind_apply, h, hb, hr])
        | ok bytes d₂ =>
          have hd₂ : d₂ = d₁ := by
            simp only [readBuf] at hr
            split at hr <;> cases hr
            rfl
          cases ha : appendVarLenIntByte isSigned (bytes.headD 0).toNat d₂ with
          | error e d₃ => exact .inl (by simp only [varLenLoop, bind_apply, h, hb, hr, ha])
          | ok _ d₃ =>
            simp only [varLenLoop, bind_apply, h, hb, hr, ha]
            split
            · exact .inl rfl
            · rename_i hlast
              obtain ⟨hlen, hle, hhead'⟩ := appendVarLenIntByte_continues (Nat.not_lt.mp hlast) ha
              rw [hd₂] at hlen hhead'
              have hfuel' : varLenFuel d₃ = n := by
                unfold varLenFuel at hfuel ⊢
                omega
              obtain hi | ⟨d', hi, hbase, hal⟩ := ih d₃ hfuel'
              · exact .inl hi
              · exact .inr ⟨d', hi, hbase, hal.trans (alignLen_add_eight (by rw [hhead', hhead]))⟩
    · refine .inr ⟨d, ?_, by rw [hfuel], rfl⟩
      simp only [varLenLoop, bind_apply, h]

/-! ## Handlers -/

theorem liftDec_retries {α : Type} {p q : DecM α} (h : Retries .tryAgain p q) :
    Retries .tryAgain (liftDec p) (liftDec q) := by
  intro s
  unfold liftDec
  obtain hs | hs := h s.toDec
  · exact .inl (by rw [hs])
  · exact .inr (by rw [hs])

theorem stackTop_reads {s' : Iter} {top : Frame} (h : stackTop s = .ok top s') : s' = s := by
  unfold stackTop at h
  split at h <;> cases h
  rfl

/-- From `s₁`, the iterator goes on as from `s`. -/
def Resumes (tc : TraceCls) (base : Medium) (s₁ s : Iter) : Prop :=
  ∀ items o, Runs (reply tc) (Alone base) s₁ items o → Runs (reply tc) (Alone base) s items o

theorem reply_congr (h : handleState tc base s₁ = handleState tc base s) :
    reply tc base s₁ = reply tc base s := by
  simp only [reply, h]

theorem Resumes.of_eq (h : handleState tc base s₁ = handleState tc base s) :
    Resumes tc base s₁ s := by
  intro items o hr
  rw [runs_iff_after] at hr ⊢
  rwa [← reply_congr h]

theorem Resumes.of_padding {s₀ : Iter} {align : ℕ} (hstate : s₁.state = .skipContentPadding)
    (hskip : skipPadding base true s₁ = alignHead base align s₀)
    (hok : ∀ s₂, alignHead base align s₀ = .ok () s₂ →
      handleState tc base s₂ = handleState tc base s)
    (herror : ∀ e s₂, alignHead base align s₀ = .error e s₂ →
      handleState tc base s = .error e s₂) : Resumes tc base s₁ s := by
  intro items o hr
  rw [runs_iff_after] at hr ⊢
  rw [reply] at hr
  simp only [handleState, hstate, seqRight_apply, hskip, pure_apply] at hr
  cases ha : alignHead base align s₀ with
  | ok _ s₂ =>
    rw [ha] at hr
    rw [← reply_congr (hok s₂ ha), ← runs_iff_after]
    exact hr
  | error e s₂ =>
    rw [ha] at hr
    simpa only [reply, herror e s₂ ha] using hr

/-- The handling of `s` isn't interrupted, or it can be resumed. -/
def Resumable (tc : TraceCls) (base m : Medium) (s : Iter) : Prop :=
  handleState tc m s = handleState tc base s ∨
    ∃ s₁, handleState tc m s = .error .tryAgain s₁ ∧ Resumes tc base s₁ s

inductive BeginsField : (Medium → M Reaction) → Prop
  | fault : BeginsField fun _ => throw .fault
  | field (kind fc info next) : BeginsField fun m => handleBeginReadField m kind fc info next
  | dynLen (kind fc) (index : ℕ) (info : ℕ → BeginInfo) (next : ℕ → M Unit) :
    BeginsField fun m => get >>= fun s =>
      handleBeginReadField m kind fc (info (s.savedKeyVals index)) (next (s.savedKeyVals index))

inductive ReadsScalar : (Medium → M Reaction) → Prop
  | fault : ReadsScalar fun _ => throw .fault
  | fixedLen (kind p sfc fc k) : ReadsScalar fun m => readFixedLenField m kind p sfc fc >>= k
  | varLenInt (isSigned) (k) : ReadsScalar fun m => alignHead m 8 >>= fun _ =>
      liftDec (fun d => varLenLoop m isSigned (varLenFuel d) d) >>= k

section
variable {tc : TraceCls} {base m : Medium} (hm : base.Interrupts m) {s : Iter}
include hm

theorem Resumable.beginReadField {kind : ContainerKind} {fc : Fc} {info : BeginInfo}
    {next : M Unit}
    (h : ∀ m s', s'.state = s.state → s'.stack = s.stack → s'.savedKeyVals = s.savedKeyVals →
      handleState tc m s' = handleBeginReadField m kind fc info next s') :
    Resumable tc base m s := by
  have hs : ∀ m, handleState tc m s = handleBeginReadField m kind fc info next s :=
    fun m => h m s rfl rfl rfl
  unfold Resumable
  rw [hs m, hs base]
  simp only [handleBeginReadField, updateForUser, bind_apply, modify_apply, pure_apply]
  obtain ha | ⟨s₁, ha, hstate, hskip⟩ :=
    alignHead_resume hm fc.align { s with curItem := some (.fieldBegin kind fc info) }
  · exact .inl (by rw [ha])
  · refine .inr ⟨s₁, by rw [ha], .of_padding hstate hskip ?_ ?_⟩
    · intro s₂ hok
      obtain ⟨hlen, hmoved, hst, hframe⟩ := alignHead_ok hok
      have hitem : { s₂ with curItem := some (Item.fieldBegin kind fc info) } = s₂ := by
        rw [hframe]
      have hagain : alignHead base fc.align s₂ = .ok () s₂ := by
        rw [alignHead_apply, if_pos hlen]
      rw [hs base, h base s₂ hst (by rw [hframe]) (by rw [hmoved])]
      simp only [handleBeginReadField, updateForUser, bind_apply, modify_apply, hitem, hagain, hok]
    · intro e s₂ herror
      rw [hs base]
      simp only [handleBeginReadField, updateForUser, bind_apply, modify_apply, herror]

theorem Resumable.readScalar {β : Type} (align : ℕ) {p : Medium → DecM β} {k : β → M Reaction}
    (h : ∀ m s', s'.state = s.state → s'.curScalarFc = s.curScalarFc →
      handleState tc m s' = (alignHead m align >>= fun _ => liftDec (p m) >>= k) s')
    (hp : ∀ d, d.alignLen align = 0 → p m d = p base d ∨
      ∃ d', p m d = .error .tryAgain d' ∧ p base d' = p base d ∧ d'.alignLen align = 0) :
    Resumable tc base m s := by
  have hs : ∀ m, handleState tc m s = (alignHead m align >>= fun _ => liftDec (p m) >>= k) s :=
    fun m => h m s rfl rfl
  unfold Resumable
  obtain ha | ⟨s₁, ha, hstate, hskip⟩ := alignHead_resume hm align s
  · cases hb : alignHead base align s with
    | error e s₂ => exact .inl (by rw [hs m, hs base]; simp only [bind_apply, ha, hb])
    | ok _ s₂ =>
      obtain ⟨hlen, hmoved, hst, hframe⟩ := alignHead_ok hb
      obtain hpd | ⟨d', hpd, heq, hlen'⟩ := hp s₂.toDec hlen
      · exact .inl (by rw [hs m, hs base]; simp only [bind_apply, ha, hb, liftDec, hpd])
      · refine .inr ⟨{ s₂ with toDec := d' }, ?_, .of_eq ?_⟩
        · rw [hs m]
          simp only [bind_apply, ha, hb, liftDec, hpd]
        · have hagain : alignHead base align { s₂ with toDec := d' } =
              .ok () { s₂ with toDec := d' } := by
            rw [alignHead_apply, if_pos hlen']
          rw [hs base, h base { s₂ with toDec := d' } hst (by rw [hframe])]
          simp only [bind_apply, hagain, hb, liftDec, heq]
  · refine .inr ⟨s₁, by rw [hs m]; simp only [bind_apply, ha], .of_padding hstate hskip ?_ ?_⟩
    · intro s₂ hok
      obtain ⟨hlen, -, hst, hframe⟩ := alignHead_ok hok
      have hagain : alignHead base align s₂ = .ok () s₂ := by
        rw [alignHead_apply, if_pos hlen]
      rw [hs base, h base s₂ hst (by rw [hframe])]
      simp only [bind_apply, hok, hagain]
    · intro e s₂ herror
      rw [hs base]
      simp only [bind_apply, herror]

theorem Resumable.of_begins {g : Medium → M Reaction} (hg : BeginsField g)
    (h : ∀ m s', s'.state = s.state → s'.stack = s.stack → handleState tc m s' = g m s') :
    Resumable tc base m s := by
  cases hg with
  | fault => exact .inl ((h m s rfl rfl).trans (h base s rfl rfl).symm)
  | field kind fc info next => exact .beginReadField hm fun m s' hs hs' _ => h m s' hs hs'
  | dynLen kind fc index info next =>
    have hbegin : ∀ m s', s'.state = s.state → s'.stack = s.stack →
        s'.savedKeyVals = s.savedKeyVals → handleState tc m s' =
          handleBeginReadField m kind fc (info (s.savedKeyVals index))
            (next (s.savedKeyVals index)) s' := by
      intro m s' hs hs' hkeys
      rw [← hkeys]
      exact h m s' hs hs'
    exact .beginReadField hm hbegin

theorem Resumable.of_stackTopFc {f : Medium → Option Fc → M Reaction}
    (hf : ∀ m s', s'.state = s.state → handleState tc m s' = (stackTopFc >>= f m) s')
    (hfc : ∀ fc?, BeginsField fun m => f m fc?) : Resumable tc base m s := by
  cases hstack : s.stack with
  | nil => exact .inl (by simp only [hf _ s rfl, stackTopFc, bind_apply, hstack])
  | cons top rest =>
    refine .of_begins hm (hfc top.fc) fun m s' hs hs' => ?_
    simp only [hf m s' hs, stackTopFc, bind_apply, hs', hstack]

omit hm in
theorem Resumable.of_retries
    (h : handleState tc m s = handleState tc base s ∨ handleState tc m s = .error .tryAgain s) :
    Resumable tc base m s :=
  h.imp id fun h => ⟨s, h, fun _ _ hr => hr⟩

theorem readRawDataNoNext_retries :
    Retries .tryAgain (readRawDataNoNext m) (readRawDataNoNext base) :=
  .read_bind stackTop_reads fun _ => (liftDec_retries (readRawData_retries hm _)).bind _

theorem handleReadMetadataStreamUuidBlobFieldSection_retries :
    Retries .tryAgain (handleReadMetadataStreamUuidBlobFieldSection m)
      (handleReadMetadataStreamUuidBlobFieldSection base) :=
  .read_bind stackTop_reads fun _ => (readRawDataNoNext_retries hm).bind _

theorem handleReadSubstrUntilNullCodepoint_retries (cu : CodeUnit) :
    Retries .tryAgain (handleReadSubstrUntilNullCodepoint m cu)
      (handleReadSubstrUntilNullCodepoint base cu) :=
  .get_bind fun _ => (liftDec_retries (readSubstr_retries hm _ _)).bind _

theorem handleTryBeginReadEventRecord_retries :
    Retries .tryAgain (handleTryBeginReadEventRecord m) (handleTryBeginReadEventRecord base) :=
  (liftDec_retries (hasEventRecord_retries hm)).bind _

theorem Resumable.tryBeginReadPkt (h : s.state = .tryBeginReadPkt) : Resumable tc base m s := by
  have heq : ∀ m s', s'.state = .tryBeginReadPkt → handleState tc m s' =
      ItemSeq.tryBeginReadPkt m { s' with toDec := resetForNewPkt s'.toDec, stack := [] } := by
    intro m s' hs
    simp only [handleState, hs, handleTryBeginReadPkt, bind_apply, modify_apply]
  have hrest : Retries .tryAgain (ItemSeq.tryBeginReadPkt m) (ItemSeq.tryBeginReadPkt base) :=
    .get_bind fun _ => .ite (.bind (liftDec_retries (tryHaveData_retries hm 1)) _) (.refl _ _)
  obtain hr | hr := hrest { s with toDec := resetForNewPkt s.toDec, stack := [] }
  · exact .inl (by rw [heq m s h, heq base s h, hr])
  · refine .inr ⟨_, by rw [heq m s h, hr], .of_eq ?_⟩
    rw [heq base s h]
    exact heq base { s with toDec := resetForNewPkt s.toDec, stack := [] } h

theorem Resumable.skipPadding (c : Bool)
    (h : ∀ m s', s'.state = s.state →
      handleState tc m s' = (skipPadding m c *> pure .continue : M Reaction) s') :
    Resumable tc base m s := by
  obtain hl | ⟨d', r', hl, hb⟩ := skipLoop_resume hm c s.remainingLenToSkip _ s.toDec le_rfl
  · exact .inl (by simp only [h _ s rfl, seqRight_apply, ItemSeq.skipPadding, hl])
  · refine .inr ⟨{ s with toDec := d', remainingLenToSkip := r' }, ?_, .of_eq ?_⟩
    · simp only [h _ s rfl, seqRight_apply, ItemSeq.skipPadding, hl]
    · rw [h base s rfl, h base { s with toDec := d', remainingLenToSkip := r' } rfl]
      simp only [seqRight_apply, ItemSeq.skipPadding, hb]

theorem Resumable.of_reads {g : Medium → M Reaction} (hg : ReadsScalar g)
    (h : ∀ m s', s'.state = s.state → s'.curScalarFc = s.curScalarFc →
      handleState tc m s' = g m s') : Resumable tc base m s := by
  cases hg with
  | fault => exact .inl ((h m s rfl rfl).trans (h base s rfl rfl).symm)
  | fixedLen kind p sfc fc k =>
    refine .readScalar hm fc.align (p := fun m => readFixedLenInt m (kind = .sInt) p fc)
      (k := fun val => updateForUser (.fixedLenField kind sfc val) >>= fun _ => k val)
      (fun m s' hs hc => (h m s' hs hc).trans ?_) fun d hd => ?_
    · simp only [readFixedLenField, bind_assoc, pure_bind]
    · exact (readFixedLenInt_retries hm _ p fc d).imp id fun h => ⟨d, h, rfl, hd⟩
  | varLenInt isSigned k =>
    refine .readScalar hm 8 h fun d hd => ?_
    obtain hl | ⟨d', hl, hb, ha⟩ := varLenLoop_resume hm isSigned _ d rfl
    · exact .inl hl
    · exact .inr ⟨d', hl, hb, ha.trans hd⟩

theorem Resumable.of_curScalarFc {f : Medium → Option ScalarFc → M Reaction}
    (hf : ∀ m s', s'.state = s.state → handleState tc m s' = (getCurScalarFc >>= f m) s')
    (hfc : ∀ fc?, ReadsScalar fun m => f m fc?) : Resumable tc base m s := by
  refine .of_reads hm (hfc s.curScalarFc) fun m s' hs hc => ?_
  rw [hf m s' hs, bind_apply, getCurScalarFc, hc]

/-- Whichever state handler is interrupted, the iterator goes on as if it wasn't, the end of the
packet content apart. -/
theorem handleState_resumable (h : s.state ≠ .endReadPktContent) : Resumable tc base m s := by
  cases hst : s.state with
  | endReadPktContent => exact absurd hst h
  | tryBeginReadPkt => exact .tryBeginReadPkt hm hst
  | skipPadding =>
    exact .skipPadding hm false fun m s' hs => by simp only [handleState, hs, hst]
  | skipContentPadding =>
    exact .skipPadding hm true fun m s' hs => by simp only [handleState, hs, hst]
  | tryBeginReadEventRecord =>
    refine .of_retries ?_
    simp only [handleState, hst]
    exact handleTryBeginReadEventRecord_retries hm s
  | readRawData =>
    refine .of_retries ?_
    simp only [handleState, hst]
    exact (readRawDataNoNext_retries hm).bind _ s
  | readMetadataStreamUuidBlobFieldSection =>
    refine .of_retries ?_
    simp only [handleState, hst]
    exact handleReadMetadataStreamUuidBlobFieldSection_retries hm s
  | readSubstrUntilNullCodepoint cu =>
    refine .of_retries ?_
    simp only [handleState, hst]
    exact handleReadSubstrUntilNullCodepoint_retries hm cu s
  | beginReadStructField | beginReadStaticLenArrayField
  | beginReadStaticLenArrayFieldWithMetadataStreamUuidRole | beginReadNullTerminatedStrField
  | beginReadStaticLenStrField | beginReadStaticLenBlobField
  | beginReadStaticLenBlobFieldWithMetadataStreamUuidRole =>
    refine .of_stackTopFc hm (fun m s' hs => by simp only [handleState, hs, hst]; rfl) fun _ => ?_
    split
    · exact .field _ _ _ _
    · exact .fault
  | beginReadDynLenArrayField =>
    refine .of_stackTopFc hm (fun m s' hs => by simp only [handleState, hs, hst]; rfl) fun _ => ?_
    split
    · rename_i align index elemFc
      exact .dynLen _ _ index .len fun len => beginElems len (prepareToReadField elemFc)
    · exact .fault
  | beginReadDynLenStrField | beginReadDynLenBlobField =>
    refine .of_stackTopFc hm (fun m s' hs => by simp only [handleState, hs, hst]; rfl) fun _ => ?_
    split
    · rename_i index
      exact .dynLen _ _ index (fun len => .len (8 * len % 2 ^ 64))
        fun len => beginElems len fun s => { s with state := .readRawData }
    · exact .fault
  | readFixedLenField | readFixedLenMetadataStreamUuidByteUIntFieldBa8 =>
    refine .of_curScalarFc hm (fun m s' hs => by simp only [handleState, hs, hst]; rfl) fun _ => ?_
    split
    · exact .fixedLen _ _ _ _ _
    · exact .fault
  | readVarLenIntField =>
    refine .of_curScalarFc hm (fun m s' hs => by simp only [handleState, hs, hst]; rfl) fun _ => ?_
    split
    · exact .varLenInt _ _
    · exact .fault
  | _ => exact .inl (by simp only [handleState, hst])

end

/-! ## Runs -/

def Interrupted (tc : TraceCls) (base : Medium) (s : Iter) (m : Medium) : Prop :=
  base.Interrupts m ∧
    (s.state = .endReadPktContent → ∀ s', handleState tc m s ≠ .error .tryAgain s')

theorem handleEndReadPktContent_retries (hm : base.Interrupts m) (s : Iter) :
    handleEndReadPktContent m s = handleEndReadPktContent base s ∨
      ∃ s', handleEndReadPktContent m s = .error .tryAgain s' := by
  unfold handleEndReadPktContent updateForUser setState
  simp only [bind_apply, modify_apply, get_apply]
  split
  · exact .inl rfl
  · split
    · simp only [skipPadding, bind_apply, modify_apply]
      obtain hl | ⟨d', r', hl, -⟩ := skipLoop_resume hm false
        (safeSub s.expectedTotalLen s.headOffsetInCurPkt) _ s.toDec le_rfl
      · exact .inl (by rw [hl])
      · exact .inr ⟨_, by rw [hl]⟩
    · exact .inl rfl

theorem Interrupted.resumable (h : Interrupted tc base s m) : Resumable tc base m s := by
  by_cases hst : s.state = .endReadPktContent
  · obtain heq | ⟨s', htry⟩ := handleEndReadPktContent_retries h.1 s
    · exact .inl (by simp only [handleState, hst, heq])
    · exact absurd (by simp only [handleState, hst, htry]) (h.2 hst s')
  · exact handleState_resumable h.1 hst

theorem Interrupted.reply_eq (h : Interrupted tc base s m) : reply tc m s = reply tc base s ∨
      ∃ s₁, reply tc m s = .again s₁ ∧ Resumes tc base s₁ s := by
  obtain heq | ⟨s₁, htry, hres⟩ := h.resumable
  · exact .inl (by simp only [reply, heq])
  · exact .inr ⟨s₁, by simp only [reply, htry, toReply], hres⟩

theorem Runs.resume {items : List Item} {o : Outcome Exc}
    (h : Runs (reply tc) (Interrupted tc base) s items o) :
    Runs (reply tc) (Alone base) s items o := by
  induction h with
  | «continue» hm h _ ih =>
    obtain heq | ⟨s₁, hagain, -⟩ := hm.reply_eq
    · exact .continue rfl (heq ▸ h) ih
    · rw [hagain] at h; cases h
  | item hm h _ ih =>
    obtain heq | ⟨s₁, hagain, -⟩ := hm.reply_eq
    · exact .item rfl (heq ▸ h) ih
    · rw [hagain] at h; cases h
  | again hm h _ ih =>
    obtain heq | ⟨s₁, hagain, hres⟩ := hm.reply_eq
    · exact .again rfl (heq ▸ h) ih
    · rw [hagain] at h
      cases h
      exact hres _ _ ih
  | ended hm h =>
    obtain heq | ⟨s₁, hagain, -⟩ := hm.reply_eq
    · exact .ended rfl (heq ▸ h)
    · rw [hagain] at h; cases h
  | failed hm h =>
    obtain heq | ⟨s₁, hagain, -⟩ := hm.reply_eq
    · exact .failed rfl (heq ▸ h)
    · rw [hagain] at h; cases h

/-- Interrupts `base` each time `c` holds. -/
def Medium.interruptedIf (base : Medium) (c : Bool) : Medium := fun offset minSize =>
  if c then .tryAgain else base offset minSize

theorem Medium.interruptedIf_interrupts (base : Medium) (c : Bool) :
    base.Interrupts (base.interruptedIf c) := by
  intro offset minSize
  cases c
  · exact .inl rfl
  · exact .inr rfl

end Babeltrace.ItemSeq
