import Babeltrace.ItemSeqIter
import Babeltrace.Program

/-!
# Requests of data and padding

They change the buffer and the head, and nothing else.
-/
namespace Babeltrace.ItemSeq
open Program

/-- `d'` differs from `d` by its buffer and its head only. -/
def Dec.Moved (d d' : Dec) : Prop :=
  d' = { d with
    buf := d'.buf
    bufOffsetInCurPkt := d'.bufOffsetInCurPkt
    headOffsetInCurPkt := d'.headOffsetInCurPkt }

theorem Dec.Moved.refl (d : Dec) : d.Moved d := rfl

variable {d d' : Dec} {m : Medium}

theorem Dec.Moved.trans {d'' : Dec} (h : d.Moved d') (h' : d'.Moved d'') : d.Moved d'' := by
  unfold Dec.Moved at *
  rw [h', h]

/-- `d'` differs from `d` by its buffer only. -/
def Dec.Requests (d d' : Dec) : Prop :=
  d' = { d with buf := d'.buf, bufOffsetInCurPkt := d'.bufOffsetInCurPkt }

theorem Dec.Requests.refl (d : Dec) : d.Requests d := rfl

theorem Dec.Requests.trans {d'' : Dec} (h : d.Requests d') (h' : d'.Requests d'') :
    d.Requests d'' := by
  unfold Dec.Requests at *
  rw [h', h]

theorem Dec.Requests.moved (h : d.Requests d') :
    d.Moved d' ∧ d'.headOffsetInCurPkt = d.headOffsetInCurPkt := by
  rw [h]
  exact ⟨rfl, rfl⟩

theorem failWith_requests {α : Type} (cause : Err) :
    Moves Dec.Requests (failWith cause : DecM α) := Dec.Requests.refl

theorem tryHaveData_requests (m : Medium) (len : ℕ) : Moves Dec.Requests (tryHaveData m len) := by
  intro d
  simp only [tryHaveData]
  by_cases h : len ≤ d.remainingBufLen
  · simp only [h, if_true]
    exact .refl d
  · simp only [h, if_false]
    cases m (d.curPktOffsetInItemSeq / 8 + d.headOffsetInCurPkt / 8)
      ((len + 7 + d.headOffsetInCurPkt % 8) / 8) with
    | buf b => exact rfl
    | noData | tryAgain => exact .refl d

theorem tryHaveData_error {len : ℕ} {e : Exc} (h : tryHaveData m len d = .error e d') : d' = d := by
  simp only [tryHaveData] at h
  split at h
  · cases h
  · split at h <;> cases h
    rfl

theorem requireData_requests (m : Medium) (len : ℕ) : Moves Dec.Requests (requireData m len) :=
  .bind .trans (tryHaveData_requests m len) fun _ => .ite (failWith_requests _) (.pure .refl _)

theorem requireContentData_requests (m : Medium) (len : ℕ) :
    Moves Dec.Requests (requireContentData m len) :=
  .get_bind fun _ => .ite (.bind .trans (failWith_requests _) fun _ => requireData_requests m len)
    (requireData_requests m len)

theorem requireContentData_moved {len : ℕ} (h : requireContentData m len d = .ok () d') :
    d.Moved d' ∧ d'.headOffsetInCurPkt = d.headOffsetInCurPkt :=
  ((requireContentData_requests m len).ok h).moved

theorem requirePadding_requests (m : Medium) (isContentData : Bool) :
    Moves Dec.Requests (if isContentData = true then requireContentData m 1
      else requireData m 1) :=
  .ite (requireContentData_requests m 1) (requireData_requests m 1)

theorem skipLoop_moved {c : Bool} (n : ℕ) :
    ∀ {r : ℕ} {d d' : Dec} {r' : ℕ}, skipLoop m c n (d, r) = .ok () (d', r') →
      d.Moved d' ∧ d'.headOffsetInCurPkt = d.headOffsetInCurPkt + r ∧ r' = 0 := by
  induction n with
  | zero =>
    intro r d d' r' h
    simp only [skipLoop] at h
    split at h
    · rename_i h0
      cases h
      exact ⟨.refl d, by simp_all, h0⟩
    · cases h
  | succ n ih =>
    intro r d d' r' h
    simp only [skipLoop] at h
    split at h
    · rename_i h0
      cases h
      exact ⟨.refl d, by omega, h0⟩
    · split at h
      · cases h
      · rename_i d₁ hreq
        split at h
        · cases h
        · have hmoved := ((requirePadding_requests m c).ok hreq).moved
          obtain ⟨hm', hh, hr⟩ := ih h
          have hstep : d₁.Moved { d₁ with
              headOffsetInCurPkt := d₁.headOffsetInCurPkt + min r d₁.remainingBufLen } := rfl
          refine ⟨hmoved.1.trans (hstep.trans hm'), ?_, hr⟩
          simp only [hh, hmoved.2]
          omega

theorem alignLen_eq_zero {align : ℕ}
    (h : d'.headOffsetInCurPkt = d.headOffsetInCurPkt + d.alignLen align) :
    d'.alignLen align = 0 := by
  unfold Dec.alignLen at *
  have hle := le_alignUp d.headOffsetInCurPkt align
  have he : d'.headOffsetInCurPkt = alignUp d.headOffsetInCurPkt align := by
    simp only [safeSub, hle, if_true] at h
    omega
  rw [he, alignUp_alignUp]
  simp [safeSub]

/-- The state in which `_alignHead()` starts to skip padding -/
def Iter.startAlign (s : Iter) (align : ℕ) : Iter :=
  { s with
    remainingLenToSkip := s.alignLen align
    postSkipPaddingState := s.state
    state := .skipContentPadding }

theorem alignHead_apply (m : Medium) (align : ℕ) (s : Iter) :
    alignHead m align s =
      if s.alignLen align = 0 then .ok () s
      else if s.remainingPktContentLen < s.alignLen align then
        .error (.error s.headOffsetInItemSeq
          (.contentRequired (s.alignLen align) s.remainingPktContentLen)) s
      else skipPadding m true (s.startAlign align) := by
  simp only [alignHead, bind_apply, get_apply, Dec.alignLen]
  by_cases h0 : safeSub (alignUp s.headOffsetInCurPkt align) s.headOffsetInCurPkt = 0
  · simp [h0]
  · by_cases hc : s.remainingPktContentLen <
        safeSub (alignUp s.headOffsetInCurPkt align) s.headOffsetInCurPkt
    · simp [h0, hc, liftDec, failWith]
    · simp [h0, hc, Iter.startAlign, Dec.alignLen]

theorem alignHead_ok {align : ℕ} {s s' : Iter} (h : alignHead m align s = .ok () s') :
    s'.alignLen align = 0 ∧ s.toDec.Moved s'.toDec ∧ s'.state = s.state ∧
      s' = { s with
        toDec := s'.toDec
        remainingLenToSkip := s'.remainingLenToSkip
        postSkipPaddingState := s'.postSkipPaddingState } := by
  rw [alignHead_apply] at h
  split at h
  · rename_i h0
    cases h
    exact ⟨h0, .refl _, rfl, rfl⟩
  · split at h
    · cases h
    · simp only [skipPadding] at h
      split at h
      · rename_i d r hl
        cases h
        obtain ⟨hmoved, hhead, -⟩ := skipLoop_moved _ hl
        exact ⟨alignLen_eq_zero hhead, hmoved, rfl, rfl⟩
      · cases h

end Babeltrace.ItemSeq
