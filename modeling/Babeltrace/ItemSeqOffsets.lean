import Babeltrace.ItemSeqClock
import Babeltrace.ItemSeqConfine
import Babeltrace.ItemSeqGrammar

/-!
# Offsets of items

The offset of an item is the one of the head when the item is set: the bits of a fixed-length field
are then already consumed, and the padding before a container field isn't skipped yet.
-/
namespace Babeltrace.ItemSeq
open Machine Program

/-- `fieldLen()`. A byte of a variable-length integer has seven bits of its value. -/
def Item.fieldLen : Item → ℕ
  | .fixedLenField _ (.fixedLen _ fc _ _) _ => fc.len
  | .varLenIntField _ _ _ len => 8 * ((len + 6) / 7)
  | _ => 0

/-- What `_updateForUser()` sets. The head of a container field is aligned, a section of raw data is
consumed, and the padding which follows the content of a packet is skipped, afterwards. -/
def itemOffset (i : Item) (d d' : Dec) : ℕ :=
  match i with
  | .fieldBegin _ _ _ | .rawData _ | .pktContentEnd => d.headOffsetInItemSeq
  | .varLenIntField _ _ _ _ => d'.headOffsetInItemSeq - i.fieldLen
  | _ => d'.headOffsetInItemSeq

def withOffset {σ : Type} (dec : σ → Dec) (s : σ) : Reply σ Item Exc → Reply σ (Item × ℕ) Exc
  | .continue s' => .continue s'
  | .item i s' => .item (i, itemOffset i (dec s) (dec s')) s'
  | .again s' => .again s'
  | .ended => .ended
  | .failed e => .failed e

def offsetReply (tc : TraceCls) (m : Medium) (s : Iter) : Reply Iter (Item × ℕ) Exc :=
  withOffset Iter.toDec s (reply tc m s)

def Item.scalarFc : Item → Option ScalarFc
  | .fixedLenField _ fc _ | .varLenIntField _ fc _ _ => some fc
  | _ => none

def Item.isFixedLen : Item → Bool
  | .fixedLenField _ _ _ => true
  | _ => false

def Item.beginFc : Item → Option Fc
  | .fieldBegin _ fc _ => some fc
  | _ => none

def Dec.fieldOffset (d : Dec) (align : ℕ) : ℕ := d.headOffsetInItemSeq + d.alignLen align

/-- What the comments guarantee of the offset of an item which leads from `d` to `d'`. The end of a
field which follows a scalar one has the offset of the head of `d'`. -/
structure OffsetLaw (d : Dec) (i : Item) (offset : ℕ) (d' : Dec) : Prop where
  scalar : ∀ fc ∈ i.scalarFc, offset = d.fieldOffset fc.align ∧
    offset + i.fieldLen = d'.headOffsetInItemSeq
  container : ∀ fc ∈ i.beginFc, offset = d.fieldOffset fc.align ∧
    fc.align ∣ offset - d.curPktOffsetInItemSeq

/-- The field isn't a fixed-length one, and nothing is to be skipped before a container. -/
structure Lawful (d : Dec) (i : Item) : Prop where
  isFixedLen : i.isFixedLen = false
  container : ∀ fc ∈ i.beginFc, d.alignLen fc.align = 0 ∧ fc.align ∣ d.headOffsetInCurPkt

/-! ## How far the head goes -/

structure Dec.Advances (n : ℕ) (d d' : Dec) : Prop where
  pktOffset : d'.curPktOffsetInItemSeq = d.curPktOffsetInItemSeq
  head : d'.headOffsetInCurPkt = d.headOffsetInCurPkt + n
  varLen : d.curVarLenIntLen = 0 → d'.curVarLenIntLen = 0

section
variable {m : Medium} {d d' d'' : Dec} {n n' : ℕ}

theorem Dec.Advances.trans (h : d.Advances n d') (h' : d'.Advances n' d'') :
    d.Advances (n + n') d'' where
  pktOffset := h'.pktOffset.trans h.pktOffset
  head := by rw [h'.head, h.head, Nat.add_assoc]
  varLen h₀ := h'.varLen (h.varLen h₀)

theorem Dec.Advances.offset (h : d.Advances n d') :
    d'.headOffsetInItemSeq = d.headOffsetInItemSeq + n := by
  rw [Dec.headOffsetInItemSeq, Dec.headOffsetInItemSeq, h.pktOffset, h.head, Nat.add_assoc]

theorem Dec.Requests.advances (h : d.Requests d') : d.Advances 0 d' := by
  rw [h]
  exact ⟨rfl, rfl, id⟩

theorem skipLoop_advances {c : Bool} {k r r' : ℕ} (h : skipLoop m c k (d, r) = .ok () (d', r')) :
    d.Advances r d' := by
  obtain ⟨hmoved, hhead, -⟩ := skipLoop_moved k h
  exact ⟨by rw [hmoved], hhead, fun h₀ => by rw [hmoved]; exact h₀⟩

theorem requireContentData_advances (d : Dec) (len : ℕ) :
    Triple (Dec.Advances n d) (requireContentData m len) (fun _ => Dec.Advances n d)
      fun _ => True := by
  intro d₁ h
  cases hreq : requireContentData m len d₁ with
  | ok _ d₂ => exact h.trans ((requireContentData_requests m len).ok hreq).advances
  | error e d₂ => trivial

theorem readFixedLenInt_advances (d : Dec) (isSigned : Bool) (p : ReadParams)
    (fc : FixedLenBitArrayFc) :
    Triple (Dec.Advances 0 d) (readFixedLenInt m isSigned p fc) (fun _ => Dec.Advances fc.len d)
      fun _ => True := by
  refine .bind (requireContentData_advances d fc.len) fun _ => .get_bind fun d₁ hd₁ => ?_
  have hE : ∀ d', d' = d₁ → True := fun _ _ => trivial
  have hend (val : ℤ) (size : ℕ) (bytes : List UInt8) :
      Triple (fun d' => d' = d₁ ∧ bytes.length = size) (do
        modify fun d : Dec => { d with lastFixedLenBitArrayFieldByteOrder := some fc.byteOrder }
        consumeAvailData fc.len
        pure val : DecM ℤ) (fun _ => Dec.Advances fc.len d) fun _ => True := by
    rintro _ ⟨rfl, -⟩
    exact ⟨hd₁.pktOffset, congrArg (· + fc.len) hd₁.head, hd₁.varLen⟩
  by_cases h0 : p.lenBits = 0
  · simp only [h0, if_true]
    exact .bind (checkLastByteOrder_triple hE fc) fun _ =>
      .bind (readBuf_triple hE _) fun bytes => hend _ _ bytes
  · simp only [h0, if_false]
    exact .bind (readBuf_triple hE _) fun bytes => hend _ _ bytes

theorem readRawData_advances (d : Dec) (remaining : ℕ) :
    Triple (Dec.Advances 0 d) (readRawData m remaining)
      (fun bytes => Dec.Advances (8 * bytes.length) d) fun _ => True := by
  refine .bind (requireContentData_advances d 8) fun _ => .get_bind fun d₁ hd₁ =>
    .ite (fun _ => ?_) fun _ => .bind (readBuf_triple (fun _ _ => trivial) _) fun bytes => ?_
  · rintro _ rfl
    trivial
  · rintro _ ⟨rfl, hlen⟩
    exact ⟨hd₁.pktOffset, by rw [hlen]; exact congrArg (· + _) hd₁.head, hd₁.varLen⟩

theorem readSubstr_advances (d : Dec) (cu : CodeUnit) (part : List UInt8) :
    Triple (Dec.Advances 0 d) (readSubstr m cu part) (fun r => Dec.Advances (8 * r.1.length) d)
      fun _ => True := by
  refine .bind (requireContentData_advances d 8) fun _ => .get_bind fun d₁ hd₁ =>
    .bind (readBuf_triple (fun _ _ => trivial) _) fun bytes => .ite (fun _ => ?_) fun _ => ?_
  · rintro _ ⟨rfl, -⟩
    trivial
  · rintro _ ⟨rfl, -⟩
    have hle := findNullCp_getD_le cu part bytes
    refine ⟨hd₁.pktOffset, ?_, hd₁.varLen⟩
    rw [List.length_take_of_le hle]
    exact congrArg (· + _) hd₁.head

theorem appendVarLenIntByte_advances {isSigned : Bool} {byte : ℕ}
    (h : appendVarLenIntByte isSigned byte d = .ok () d') :
    d'.curPktOffsetInItemSeq = d.curPktOffsetInItemSeq ∧
      d'.headOffsetInCurPkt = d.headOffsetInCurPkt + 8 ∧
      d'.curVarLenIntLen = min 64 (d.curVarLenIntLen + 7) ∧
      (128 ≤ byte → d.curVarLenIntLen + 7 ≤ 63) := by
  rw [appendVarLenIntByte, get_bind_apply] at h
  split at h
  · obtain ⟨_, _, hfail, -⟩ := bind_eq_ok h
    cases hfail
  · rename_i hsize
    cases h
    refine ⟨rfl, rfl, ?_, fun hbyte => ?_⟩
    · simp only
      split <;> omega
    · by_contra hlen
      exact hsize ⟨by omega, .inl hbyte⟩

/-- `j` bytes are already read. The tenth byte has a single bit. -/
theorem varLenLoop_advances {isSigned : Bool} {r : ℤ × ℕ} {j : ℕ} (hj : j ≤ 9)
    (hd : d.curVarLenIntLen = 7 * j) (h : varLenLoop m isSigned n d = .ok r d') :
    ∃ k, 0 < k ∧ d.Advances (8 * k) d' ∧ (r.2 + 6) / 7 = j + k := by
  have hzero := varLenLoop_len h
  induction n generalizing d j with
  | zero => cases h
  | succ n ih =>
    obtain ⟨_, d₁, hreq, h⟩ := bind_eq_ok h
    have hrequests := (requireContentData_requests m 8).ok hreq
    obtain ⟨bytes, d₂, hread, h⟩ := bind_eq_ok h
    have hd₂ : d₂ = d₁ := ((readBuf_triple (I := (· = d₁)) (fun _ _ => trivial) 1).ok rfl hread).1
    obtain ⟨_, d₃, happend, h⟩ := bind_eq_ok h
    obtain ⟨hpkt, hhead, hlen, hmore⟩ := appendVarLenIntByte_advances happend
    rw [hd₂, hrequests] at hpkt hhead hlen hmore
    simp only at hpkt hhead hlen hmore h
    split at h
    · cases h
      refine ⟨1, by decide, ⟨hpkt, hhead, fun _ => rfl⟩, ?_⟩
      simp only
      omega
    · have hmore := hmore (by omega)
      obtain ⟨k, hk, hadv, hr⟩ := ih (j := j + 1) (by omega) (by omega) h
      refine ⟨k + 1, by omega, ⟨hadv.pktOffset.trans hpkt, ?_, fun _ => hzero⟩, by omega⟩
      rw [hadv.head, hhead]
      omega

theorem handleRoles_advances (roles : List UIntFieldRole) (len val : ℕ) (d : Dec) :
    d.Advances 0 (handleRoles roles len val d).1 := by
  have hfold : ∀ (roles : List UIntFieldRole) (di : Dec × Option Item), d.Advances 0 di.1 →
      d.Advances 0 (roles.foldl (handleRoleItem len val) di).1 := by
    intro roles
    induction roles with
    | nil => exact fun di h => h
    | cons role roles ih =>
      refine fun di h => ih _ ?_
      cases role <;> exact ⟨h.pktOffset, h.head, h.varLen⟩
  exact hfold roles (d, none) ⟨rfl, rfl, id⟩

end

/-! ## What each step tells -/

/-- The offset of the item of a step from `d` to `d'` -/
structure OffsetOk (d : Dec) (i : Item) (d' : Dec) : Prop where
  ge : d.headOffsetInItemSeq ≤ itemOffset i d d'
  le : itemOffset i d d' ≤ d'.headOffsetInItemSeq
  law : OffsetLaw d i (itemOffset i d d') d' ↔ Lawful d i
  fieldEnd : ∀ kind fc, i = .fieldEnd kind fc → itemOffset i d d' = d.headOffsetInItemSeq

structure Agenda.Settled (a : Agenda) : Prop where
  varLen : a.dec.curVarLenIntLen = 0
  head : a.phase = .init ∨ a.phase = .tryBeginPkt → a.tasks = [] ∧ a.dec.headOffsetInCurPkt = 0

/-- What a step from `d` gives -/
def StepsTo (d : Dec) (is : List Item) (a : Agenda) : Prop :=
  a.Settled ∧ d.headOffsetInItemSeq ≤ a.dec.headOffsetInItemSeq ∧ ∀ i ∈ is, OffsetOk d i a.dec

section
variable {m : Medium} {d d' : Dec} {n : ℕ} {tasks rest : List Task} {phase : Phase} {i : Item}
  {Q : Answer → Prop} {kind : FixedLenKind} {val : ℤ} {len : ℕ}

theorem OffsetOk.plain (h : d.Advances n d')
    (hoffset : itemOffset i d d' = d.headOffsetInItemSeq ∨
      itemOffset i d d' = d'.headOffsetInItemSeq := by exact .inr rfl)
    (hscalar : i.scalarFc = none := by rfl) (hbegin : i.beginFc = none := by rfl)
    (hend : ∀ kind fc, i = .fieldEnd kind fc → n = 0 := by simp) : OffsetOk d i d' := by
  have hle := h.offset
  refine ⟨by omega, by omega, ⟨fun _ => ⟨?_, by simp [hbegin]⟩, fun _ => ⟨?_, ?_⟩⟩,
    fun kind fc hi => ?_⟩
  · cases i with
    | fixedLenField => cases hscalar
    | _ => rfl
  · simp [hscalar]
  · simp [hbegin]
  · have hzero := hend kind fc hi
    omega

theorem StepsTo.of_advances (hd : d.curVarLenIntLen = 0) (h : d.Advances n d')
    (hphase : phase = .init ∨ phase = .tryBeginPkt → tasks = [] ∧ d'.headOffsetInCurPkt = 0)
    {is : List Item} (his : ∀ i ∈ is, OffsetOk d i d') : StepsTo d is ⟨d', tasks, phase⟩ :=
  ⟨⟨h.varLen hd, hphase⟩, by have := h.offset; simp only; omega, his⟩

theorem tryDec_settled {α : Type} {p : DecM α} {k : α → Dec → Answer} (hp : Never .tryAgain p)
    (hk : ∀ a d', p d = .ok a d' → Q (k a d')) (hfailed : ∀ e, Q (.failed e)) :
    Q (tryDec p tasks phase d k) :=
  tryDec_rule hk (fun d' h => absurd h (hp d d')) hfailed

theorem tryAlign_settled {align : ℕ} {k : Dec → Answer} (hm : m.Ready)
    (hk : ∀ d', d.Advances (d.alignLen align) d' → Q (k d')) (hfailed : ∀ e, Q (.failed e)) :
    Q (tryAlign m align tasks phase d k) :=
  tryAlign_rule (fun d' _ _ h => hk d' (skipLoop_advances h))
    (fun _ _ _ h => absurd h (skipLoop_never hm _ _ _ _)) hfailed

/-! ### Tasks -/

theorem OffsetOk.container {kind : ContainerKind} {fc : Fc} {info : BeginInfo}
    (halign : d.Advances n d') : OffsetOk d (.fieldBegin kind fc info) d' := by
  have hoffset := halign.offset
  have hpkt : d.headOffsetInItemSeq - d.curPktOffsetInItemSeq = d.headOffsetInCurPkt := by
    rw [Dec.headOffsetInItemSeq]
    omega
  refine ⟨le_rfl, hoffset ▸ Nat.le_add_right _ _, ⟨fun h => ⟨rfl, fun fc' hfc' => ?_⟩,
    fun h => ⟨by rintro _ ⟨⟩, fun fc' hfc' => ?_⟩⟩, by rintro _ _ ⟨⟩⟩
  · obtain ⟨hfirst, hdvd⟩ := h.container fc' hfc'
    simp only [itemOffset, hpkt, Dec.fieldOffset] at hfirst hdvd
    exact ⟨by omega, hdvd⟩
  · obtain ⟨hskip, hdvd⟩ := h.container fc' hfc'
    simp only [itemOffset, hpkt, Dec.fieldOffset]
    exact ⟨by omega, hdvd⟩

section
variable {fc : ScalarFc} {d₁ : Dec} (halign : d.Advances (d.alignLen fc.align) d₁)
include halign

theorem OffsetOk.fixedLen (h : d₁.Advances n d') (hn : 0 < n) :
    OffsetOk d (.fixedLenField kind fc val) d' := by
  have halign := halign.offset
  have hoffset := h.offset
  refine ⟨?_, le_rfl, ⟨fun h => absurd (h.scalar fc rfl).1 ?_, fun h => ?_⟩, by rintro _ _ ⟨⟩⟩
  · simp only [itemOffset]
    omega
  · simp only [itemOffset, Dec.fieldOffset]
    omega
  · cases h.isFixedLen

theorem OffsetOk.varLen {isSigned : Bool} (h : d₁.Advances (8 * ((len + 6) / 7)) d') :
    OffsetOk d (.varLenIntField isSigned fc val len) d' := by
  have halign := halign.offset
  have hoffset := h.offset
  refine ⟨?_, ?_, ⟨fun _ => ⟨rfl, by rintro _ ⟨⟩⟩, fun _ => ⟨?_, by rintro _ ⟨⟩⟩⟩, by rintro _ _ ⟨⟩⟩
  · simp only [itemOffset, Item.fieldLen]
    omega
  · exact Nat.sub_le _ _
  · rintro _ ⟨⟩
    simp only [itemOffset, Item.fieldLen, Dec.fieldOffset]
    omega

end

section
variable {sfc : ScalarFc} {d₁ d₂ : Dec} (hd : d.curVarLenIntLen = 0)
  (halign : d.Advances (d.alignLen sfc.align) d₁) (hphase : phase ≠ .init ∧ phase ≠ .tryBeginPkt)
include hd halign hphase

theorem stepsTo_field (h : d₁.Advances n d₂) (hi : OffsetOk d i d₂) :
    StepsTo d [i] ⟨d₂, tasks, phase⟩ :=
  .of_advances hd (halign.trans h) (fun h => absurd h (not_or.mpr hphase))
    (List.forall_mem_singleton.mpr hi)

theorem afterUInt_stepsTo (h : d₁.Advances n d₂) (hi : ∀ d', d₁.Advances n d' → OffsetOk d i d') :
    (afterUInt sfc len val i rest phase d₂).Gives (StepsTo d) := by
  have hroles := handleRoles_advances sfc.roles len val.toNat
    (saveKeyVal sfc.keyValSavingIndexes val.toNat d₂)
  have hsave : d₂.Advances 0 (saveKeyVal sfc.keyValSavingIndexes val.toNat d₂) := ⟨rfl, rfl, id⟩
  have hend := h.trans (hsave.trans hroles)
  exact stepsTo_field hd halign hphase hend (hi _ hend)

theorem afterFixedLen_stepsTo (h : d₁.Advances n d₂) (hn : 0 < n) :
    (afterFixedLen kind sfc val (.fixedLenField kind sfc val) rest phase d₂).Gives (StepsTo d) := by
  have hitem (d₃ : Dec) (hd₃ : d₂.Advances 0 d₃) :
      StepsTo d [.fixedLenField kind sfc val] ⟨d₃, rest, phase⟩ :=
    stepsTo_field hd halign hphase (h.trans hd₃) (.fixedLen halign (h.trans hd₃) hn)
  unfold afterFixedLen
  split
  · split
    · split
      · exact hitem _ ⟨rfl, rfl, id⟩
      · trivial
    · trivial
  · exact hitem d₂ ⟨rfl, rfl, id⟩

theorem readScalar_stepsTo (hm : m.Ready) :
    (readScalar m sfc rest phase d₁).Gives (StepsTo d) := by
  have hd₁ := halign.varLen hd
  cases sfc with
  | fixedLen kind fc roles indexes =>
    refine tryDec_settled (readFixedLenInt_never hm _ _ fc) (fun val d₂ h => ?_) fun _ => trivial
    have hadv : d₁.Advances fc.len d₂ := (readFixedLenInt_advances d₁ _ _ fc).ok ⟨rfl, rfl, id⟩ h
    split
    · exact afterUInt_stepsTo hd halign hphase hadv fun d' hd' => .fixedLen halign hd' fc.len_pos
    · exact afterFixedLen_stepsTo hd halign hphase hadv fc.len_pos
  | varLenInt isSigned roles indexes =>
    refine tryDec_settled (p := fun d => varLenLoop m isSigned (varLenFuel d) d)
      (fun d => varLenLoop_never hm isSigned (varLenFuel d) d) (fun r d₂ h => ?_) fun _ => trivial
    obtain ⟨k, hk, hadv, hlen⟩ := varLenLoop_advances (j := 0) (by decide) hd₁ h
    rw [Nat.zero_add] at hlen
    rw [← hlen] at hadv
    obtain ⟨val, len⟩ := r
    cases isSigned with
    | true =>
      have hsave : d₂.Advances 0 (saveKeyVal indexes val d₂) := ⟨rfl, rfl, id⟩
      exact stepsTo_field hd halign hphase (hadv.trans hsave) (.varLen halign (hadv.trans hsave))
    | false => exact afterUInt_stepsTo hd halign hphase hadv fun d' hd' => .varLen halign hd'

end

theorem doTask_stepsTo {task : Task} {q : Fc → Bool} (hm : m.Ready) (hd : d.curVarLenIntLen = 0)
    (hphase : phase ≠ .init ∧ phase ≠ .tryBeginPkt) (h : TasksReady q (task :: rest)) :
    (doTask m rest phase d task).Gives (StepsTo d) := by
  have hstep {d' : Dec} {n : ℕ} {tasks : List Task} {is : List Item} (hadv : d.Advances n d')
      (his : ∀ i ∈ is, OffsetOk d i d') : StepsTo d is ⟨d', tasks, phase⟩ :=
    .of_advances hd hadv (fun h => absurd h (not_or.mpr hphase)) his
  have hrefl : d.Advances 0 d := ⟨rfl, rfl, id⟩
  cases task with
  | skip len =>
    simp only [doTask]
    split
    · rename_i hs
      exact hstep (skipLoop_advances hs) (by simp)
    · rename_i hs
      exact absurd hs (skipLoop_never hm _ _ _ _)
    · trivial
  | field fc =>
    cases fc with
    | scalar sfc =>
      exact tryAlign_settled hm (fun d₁ halign => readScalar_stepsTo hd halign hphase hm)
        fun _ => trivial
    | _ =>
      refine tryAlign_settled hm (fun d₁ halign => ?_) fun _ => trivial
      split
      · exact hstep halign (List.forall_mem_singleton.mpr (.container halign))
      · trivial
  | endField kind fc =>
    exact hstep hrefl (List.forall_mem_singleton.mpr (.plain hrefl (.inr rfl) rfl rfl fun _ _ _ => rfl))
  | rawData | uuidSection =>
    refine tryDec_settled (readRawData_never hm _) (fun bytes d' h => ?_) fun _ => trivial
    have hadv := (readRawData_advances d _).ok hrefl h
    exact hstep hadv (List.forall_mem_singleton.mpr (.plain hadv (.inl rfl)))
  | substr cu part =>
    refine tryDec_settled (readSubstr_never hm cu part) (fun r d' h => ?_) fun _ => trivial
    have hadv := (readSubstr_advances d cu part).ok hrefl h
    exact hstep hadv (List.forall_mem_singleton.mpr (.plain hadv (.inl rfl)))
  | uuidByte fc uuid =>
    refine tryAlign_settled hm (fun d₁ halign => ?_) fun _ => trivial
    refine tryDec_settled (readFixedLenInt_never hm _ _ fc) (fun val d₂ h => ?_) fun _ => trivial
    have hadv : d₁.Advances fc.len d₂ := (readFixedLenInt_advances d₁ _ _ fc).ok ⟨rfl, rfl, id⟩ h
    have hbyte : d.Advances (d.alignLen (ScalarFc.fixedLen .uInt fc [] []).align) d₁ := halign
    exact stepsTo_field hd hbyte hphase hadv (.fixedLen hbyte hadv fc.len_pos)
  | item i =>
    have hextra : i.isExtra = true := h (.item i) (List.mem_cons_self ..)
    cases i with
    | pktMagicNumber | defClkVal | metadataStreamUuid =>
      exact hstep hrefl (List.forall_mem_singleton.mpr (.plain hrefl))
    | _ => cases hextra

/-! ### Phases -/

theorem hasEventRecord_never (hm : m.Ready) : Never .tryAgain (hasEventRecord m) :=
  .get_bind fun _ => .ite (.ite (tryHaveData_never hm 1) (.pure _ _)) (.pure _ _)

theorem afterScope_ne {head : ℕ} {scope : Scope} (h : Phase.afterScope d head scope = some phase) :
    phase ≠ .init ∧ phase ≠ .tryBeginPkt := by
  cases scope <;> simp only [Phase.afterScope] at h
  case commonEventRecordCtx => split at h <;> cases h <;> simp
  case specEventRecordCtx =>
    obtain ⟨cls, -, rfl⟩ := Option.map_eq_some_iff.mp h
    simp
  all_goals
    cases h
    simp

theorem doPhase_stepsTo (tc : TraceCls) (hm : m.Ready) (hd : d.curVarLenIntLen = 0)
    (hhead : phase = .init ∨ phase = .tryBeginPkt → d.headOffsetInCurPkt = 0) :
    (doPhase tc m d phase).Gives (StepsTo d) := by
  have hrefl : d.Advances 0 d := ⟨rfl, rfl, id⟩
  -- most phases are followed by one which doesn't begin a packet
  have hcontinue {d' : Dec} {n : ℕ} {phase : Phase} (hphase : phase ≠ .init ∧ phase ≠ .tryBeginPkt)
      (hadv : d.Advances n d') : StepsTo d [] ⟨d', [], phase⟩ :=
    .of_advances hd hadv (fun h => absurd h (not_or.mpr hphase)) (by simp)
  have hitem {d' : Dec} {n : ℕ} {i : Item} {tasks : List Task} {phase : Phase}
      (hphase : phase ≠ .init ∧ phase ≠ .tryBeginPkt) (hadv : d.Advances n d')
      (hi : OffsetOk d i d') : StepsTo d [i] ⟨d', tasks, phase⟩ :=
    .of_advances hd hadv (fun h => absurd h (not_or.mpr hphase)) (List.forall_mem_singleton.mpr hi)
  cases phase with
  | init => exact .of_advances hd hrefl (fun _ => ⟨rfl, hhead (.inl rfl)⟩) (by simp)
  | tryBeginPkt =>
    have hreset : d.Advances 0 (resetForNewPkt d) := ⟨rfl, (hhead (.inr rfl)).symm, fun _ => rfl⟩
    have hmoves : Moves Dec.Requests
        (if (resetForNewPkt d).remainingBufLen = 0 then tryHaveData m 1 else pure true) :=
      .ite (tryHaveData_requests m 1) (.pure .refl _)
    refine tryDec_settled (.ite (tryHaveData_never hm 1) (.pure _ _)) (fun b d' h => ?_)
      fun _ => trivial
    have hadv := hreset.trans (hmoves.ok h).advances
    split
    · exact hitem (by simp) hadv (.plain hadv)
    · trivial
  | beginPktContent => exact hitem (by simp) hrefl (.plain hrefl)
  | endPktContent =>
    simp only [doPhase]
    split
    · exact hitem (by simp) hrefl (.plain hrefl)
    · split
      · rename_i hs
        have hadv := skipLoop_advances hs
        exact hitem (by simp) hadv (.plain hadv (.inl rfl))
      · rename_i hs
        exact absurd hs (skipLoop_never hm _ _ _ _)
      · trivial
  | skipEndPadding len =>
    simp only [doPhase]
    split
    · rename_i hs
      exact hcontinue (by simp) (skipLoop_advances hs)
    · rename_i hs
      exact absurd hs (skipLoop_never hm _ _ _ _)
    · trivial
  | endPkt =>
    have hoffset : (endReadPkt d).headOffsetInItemSeq = d.headOffsetInItemSeq := rfl
    refine ⟨⟨hd, fun _ => ⟨rfl, rfl⟩⟩, hoffset.ge, List.forall_mem_singleton.mpr ?_⟩
    refine ⟨hoffset.ge, le_rfl, ⟨fun _ => ⟨rfl, ?_⟩, fun _ => ⟨?_, ?_⟩⟩, by rintro _ _ ⟨⟩⟩ <;>
      rintro _ ⟨⟩
  | done => trivial
  | tryBeginScope scope fc head =>
    cases fc with
    | some fc => exact hitem (by simp) hrefl (.plain hrefl)
    | none =>
      simp only [doPhase]
      split
      · rename_i hafter
        exact hcontinue (afterScope_ne hafter) hrefl
      · trivial
  | endScope scope head =>
    simp only [doPhase]
    split
    · rename_i hafter
      exact hitem (afterScope_ne hafter) hrefl (.plain hrefl)
    · trivial
  | setDataStreamInfo =>
    refine tryDec_settled (setDataStreamInfo_never tc) (fun _ d' h => ?_) fun _ => trivial
    have hadv : d.Advances 0 d' := by
      rw [(setDataStreamInfo_moves tc).ok h]
      exact ⟨rfl, rfl, id⟩
    refine hitem ?_ hadv (.plain hadv)
    split <;> simp
  | setPktInfo =>
    refine tryDec_settled setPktInfo_never (fun _ d' h => ?_) fun _ => trivial
    have hadv : d.Advances 0 d' := by
      rw [(setPktInfo_ok h).1]
      exact ⟨rfl, rfl, id⟩
    exact hitem (by simp) hadv (.plain hadv)
  | tryBeginEventRecord =>
    refine tryDec_settled (hasEventRecord_never hm) (fun b d' h => ?_) fun _ => trivial
    have hadv := ((hasEventRecord_requests m).ok h).advances
    split
    · split
      · exact hitem (by simp) hadv (.plain hadv)
      · trivial
    · exact hcontinue (by simp) hadv
  | setEventRecordInfo head =>
    refine tryDec_settled setEventRecordInfo_never (fun cls d' h => ?_) fun _ => trivial
    have hadv : d.Advances 0 d' := by
      rw [(setEventRecordInfo_ok h).2]
      exact ⟨rfl, rfl, id⟩
    exact hitem (by simp) hadv (.plain hadv)
  | endEventRecord head =>
    simp only [doPhase]
    split
    · trivial
    · exact hitem (by simp) hrefl (.plain hrefl)

end

/-! ## Runs -/

section
variable {σ τ : Type} {dec : σ → Dec} {dec' : τ → Dec} {s : σ} {t : τ} {r : Reply σ Item Exc}

theorem withOffset_sim {R : σ → τ → Prop} (hR : ∀ s t, R s t → dec s = dec' t) (hst : R s t)
    {r' : Reply τ Item Exc} (h : Reply.Rel R r r') :
    Reply.Rel R (withOffset dec s r) (withOffset dec' t r') := by
  cases h with
  | «continue» h => exact .continue h
  | @item i s' t' h =>
    simp only [withOffset, hR _ _ h, hR _ _ hst]
    exact .item _ h
  | again h => exact .again h
  | ended => exact .ended
  | failed e => exact .failed e

end

def Agenda.offsetReply (tc : TraceCls) (m : Medium) (a : Agenda) : Reply Agenda (Item × ℕ) Exc :=
  withOffset Agenda.dec a (a.reply tc m)

variable {s : Iter} {a : Agenda} {m : Medium} {items : List (Item × ℕ)}

theorem Rel.toDec (h : Rel s a) : s.toDec = a.dec := by
  cases h <;> rfl

theorem reply_stepsTo (tc : TraceCls) (hm : m.Ready) (h : a.Settled)
    (hready : TasksReady Fc.hasOpts a.tasks) : (a.reply tc m).Gives (StepsTo a.dec) := by
  obtain ⟨d, tasks, phase⟩ := a
  cases tasks with
  | nil => exact doPhase_stepsTo tc hm h.varLen fun hphase => (h.head hphase).2
  | cons task rest =>
    refine doTask_stepsTo hm h.varLen (not_or.mp fun hphase => ?_) hready
    cases (h.head hphase).1

structure Agenda.Ordered (items : List (Item × ℕ)) (a : Agenda) : Prop where
  settled : a.Settled
  ready : TasksReady Fc.hasOpts a.tasks
  le : ∀ p ∈ items, p.2 ≤ a.dec.headOffsetInItemSeq
  sorted : items.Pairwise (·.2 ≤ ·.2)

theorem Agenda.Ordered.append {a' : Agenda} {js : List (Item × ℕ)} (h : a.Ordered items)
    (hsettled : a'.Settled) (hready : TasksReady Fc.hasOpts a'.tasks)
    (hle : a.dec.headOffsetInItemSeq ≤ a'.dec.headOffsetInItemSeq)
    (hjs : ∀ p ∈ js, a.dec.headOffsetInItemSeq ≤ p.2 ∧ p.2 ≤ a'.dec.headOffsetInItemSeq)
    (hsorted : js.Pairwise (·.2 ≤ ·.2)) : a'.Ordered (items ++ js) := by
  refine ⟨hsettled, hready, fun p hp => ?_, List.pairwise_append.mpr ⟨h.sorted, hsorted, ?_⟩⟩
  · obtain hp | hp := List.mem_append.mp hp
    · exact (h.le p hp).trans hle
    · exact (hjs p hp).2
  · exact fun p hp q hq => (h.le p hp).trans (hjs q hq).1

theorem reply_ordered (tc : TraceCls) (hm : m.Ready) (h : a.Ordered items) :
    (a.offsetReply tc m).Gives fun js a' => a'.Ordered (items ++ js) := by
  have hsteps := reply_stepsTo tc hm h.settled h.ready
  unfold Agenda.offsetReply
  have hready := reply_hasOpts tc m h.ready
  cases hreply : a.reply tc m with
  | «continue» a' | again a' =>
    rw [hreply] at hsteps hready
    exact h.append hsteps.1 hready hsteps.2.1 (by simp) .nil
  | item i a' =>
    rw [hreply] at hsteps hready
    have hoffset := hsteps.2.2 i (List.mem_singleton_self i)
    exact h.append hsteps.1 hready hsteps.2.1
      (List.forall_mem_singleton.mpr ⟨hoffset.ge, hoffset.le⟩) (List.pairwise_singleton ..)
  | ended | failed => trivial

theorem offset_steps_agenda {tc : TraceCls}
    (hsteps : Steps (offsetReply tc) (fun _ => (· = m)) {} items s) :
    ∃ a, Steps (Agenda.offsetReply tc) (fun _ => (· = m)) ⟨{}, [], .init⟩ items a ∧ Rel s a := by
  have hsim {s : Iter} {a : Agenda} (m : Medium) (h : Rel s a) :
      Reply.Rel Rel (offsetReply tc m s) (a.offsetReply tc m) :=
    withOffset_sim (fun _ _ h => h.toDec) h (reply_sim tc m h)
  refine Steps.sim ?_ ?_ (.phase (.init rfl)) hsteps
  · exact fun _ h => h
  · exact fun m h _ => hsim m h

theorem Rel.offsetReply_item {tc : TraceCls} {s' : Iter} {i : Item} {offset : ℕ} (h : Rel s a)
    (hreply : offsetReply tc m s = .item (i, offset) s') :
    ∃ a', a.reply tc m = .item i a' ∧ offset = itemOffset i a.dec a'.dec ∧ Rel s' a' := by
  have hsim := reply_sim tc m h
  cases hiter : reply tc m s with
  | item i' s'' =>
    rw [offsetReply, hiter] at hreply
    cases hreply
    rw [hiter] at hsim
    generalize a.reply tc m = r at hsim
    cases hsim with
    | @item _ _ a' h' => exact ⟨a', rfl, by rw [h.toDec, h'.toDec], h'⟩
  | _ =>
    rw [offsetReply, hiter] at hreply
    cases hreply

/-- The offsets of the items never decrease, and each one is the documented one if and only if the
item is `Lawful`. -/
theorem offsetLaw_iff (tc : TraceCls) {m : Medium} (hm : m.Ready)
    {items : List (Item × ℕ)} {s : Iter}
    (hsteps : Steps (offsetReply tc) (fun _ => (· = m)) {} items s) :
    items.Pairwise (·.2 ≤ ·.2) ∧
      ∀ i offset s', offsetReply tc m s = .item (i, offset) s' →
        (∀ p ∈ items, p.2 ≤ offset) ∧
        (∀ kind fc, i = .fieldEnd kind fc → offset = s.headOffsetInItemSeq) ∧
        (OffsetLaw s.toDec i offset s'.toDec ↔ Lawful s.toDec i) := by
  obtain ⟨a, hsteps, hrel⟩ := offset_steps_agenda hsteps
  have hstart : Agenda.Ordered [] ⟨{}, [], .init⟩ :=
    ⟨⟨rfl, fun _ => ⟨rfl, rfl⟩⟩, List.forall_mem_nil _, List.forall_mem_nil _, .nil⟩
  have hordered : a.Ordered items := by
    refine hsteps.invariant (I := fun items a => a.Ordered items) (fun {m' a is} hm' h => ?_) hstart
    cases hm'
    exact reply_ordered tc hm h
  refine ⟨hordered.sorted, fun i offset s' hreply => ?_⟩
  obtain ⟨a', hitem, rfl, hrel'⟩ := hrel.offsetReply_item hreply
  have hstep := reply_stepsTo tc hm hordered.settled hordered.ready
  rw [hitem] at hstep
  have hok := hstep.2.2 i (List.mem_singleton_self i)
  rw [hrel.toDec, hrel'.toDec]
  exact ⟨fun p hp => (hordered.le p hp).trans hok.ge, hok.fieldEnd, hok.law⟩

/-! ### Three fields of a packet header -/

/-- A byte, a structure of which the alignment is 32, and a variable-length integer -/
def nestedTraceCls : TraceCls where
  pktHeaderFc := some { align := 8, members := [byteFc [], .struct 32 [byteFc []],
    .scalar (.varLenInt false [] [])] }
  dataStreamClss := []

def nestedMedium : Medium := .ofBytes [1, 0, 0, 0, 2, 128, 1] 1

/-- Whether or not the next item and its offset satisfy `check` -/
def nextItemCheck (check : Iter → Item → ℕ → Iter → Bool) (s : Iter) : Bool :=
  match offsetReply nestedTraceCls nestedMedium s with
  | .item (i, offset) s' => check s i offset s'
  | _ => false

theorem exists_next {n : ℕ} {check : Iter → Item → ℕ → Iter → Bool}
    (h : evalStepsCheck (offsetReply nestedTraceCls) nestedMedium (fun _ => true) n {}
      (fun _ s => nextItemCheck check s) = true) :
    ∃ items s i offset s',
      Steps (offsetReply nestedTraceCls) (fun _ => (· = nestedMedium)) {} items s ∧
      offsetReply nestedTraceCls nestedMedium s = .item (i, offset) s' ∧
      check s i offset s' = true := by
  obtain ⟨items, s, hsteps, hcheck⟩ :=
    evalStepsCheck_sound (P := fun _ => (· = nestedMedium)) (fun _ _ => rfl) h
  unfold nextItemCheck at hcheck
  split at hcheck
  · rename_i i offset s' hreply
    exact ⟨items, s, i, offset, s', hsteps, hreply, hcheck⟩
  · cases hcheck

theorem offsetLaw_iff_varLen : ∃ items s i offset s',
    Steps (offsetReply nestedTraceCls) (fun _ => (· = nestedMedium)) {} items s ∧
      offsetReply nestedTraceCls nestedMedium s = .item (i, offset) s' ∧ offset = 40 ∧
      i.fieldLen = 16 ∧ items.Pairwise (·.2 ≤ ·.2) ∧ OffsetLaw s.toDec i offset s'.toDec := by
  have heval : evalStepsCheck (offsetReply nestedTraceCls) nestedMedium (fun _ => true) 9 {}
      (fun _ s => nextItemCheck (fun _ i offset _ => !i.isFixedLen && i.beginFc.isNone &&
        offset = 40 && i.fieldLen = 16) s) = true := by decide +kernel
  obtain ⟨items, s, i, offset, s', hsteps, hreply, hcheck⟩ := exists_next heval
  simp only [Bool.and_eq_true, Bool.not_eq_true', Option.isNone_iff_eq_none,
    decide_eq_true_eq] at hcheck
  obtain ⟨⟨⟨hfixed, hbegin⟩, hoffset⟩, hlen⟩ := hcheck
  obtain ⟨hsorted, hnext⟩ := offsetLaw_iff nestedTraceCls (Medium.ofBytes_ready _ _) hsteps
  exact ⟨items, s, i, offset, s', hsteps, hreply, hoffset, hlen, hsorted,
    (hnext i offset s' hreply).2.2.mpr ⟨hfixed, by simp [hbegin]⟩⟩

/-- The first field has the offset of its end, and the structure which follows the one of the
padding before it. -/
theorem offset_past_field : (∃ items s i offset s' fc,
    Steps (offsetReply nestedTraceCls) (fun _ => (· = nestedMedium)) {} items s ∧
      offsetReply nestedTraceCls nestedMedium s = .item (i, offset) s' ∧ fc ∈ i.scalarFc ∧
      s.fieldOffset fc.align = 0 ∧ offset = 8) ∧
    ∃ items s i offset s' fc,
      Steps (offsetReply nestedTraceCls) (fun _ => (· = nestedMedium)) {} items s ∧
        offsetReply nestedTraceCls nestedMedium s = .item (i, offset) s' ∧ fc ∈ i.beginFc ∧
        s.fieldOffset fc.align = 32 ∧ offset = 8 := by
  have hscalar : evalStepsCheck (offsetReply nestedTraceCls) nestedMedium (fun _ => true) 5 {}
      (fun _ s => nextItemCheck (fun s i offset _ =>
        i.scalarFc.any (fun fc => s.fieldOffset fc.align = 0) && offset = 8) s) = true := by
    decide +kernel
  have hcontainer : evalStepsCheck (offsetReply nestedTraceCls) nestedMedium (fun _ => true) 6 {}
      (fun _ s => nextItemCheck (fun s i offset _ =>
        i.beginFc.any (fun fc => s.fieldOffset fc.align = 32) && offset = 8) s) = true := by
    decide +kernel
  constructor
  · obtain ⟨items, s, i, offset, s', hsteps, hreply, hcheck⟩ := exists_next hscalar
    obtain ⟨hany, hoffset⟩ := Bool.and_eq_true_iff.mp hcheck
    obtain ⟨fc, hfc, hfirst⟩ := (Option.any_eq_true _ _).mp hany
    exact ⟨items, s, i, offset, s', fc, hsteps, hreply, hfc, of_decide_eq_true hfirst,
      of_decide_eq_true hoffset⟩
  · obtain ⟨items, s, i, offset, s', hsteps, hreply, hcheck⟩ := exists_next hcontainer
    obtain ⟨hany, hoffset⟩ := Bool.and_eq_true_iff.mp hcheck
    obtain ⟨fc, hfc, hfirst⟩ := (Option.any_eq_true _ _).mp hany
    exact ⟨items, s, i, offset, s', fc, hsteps, hreply, hfc, of_decide_eq_true hfirst,
      of_decide_eq_true hoffset⟩

end Babeltrace.ItemSeq
