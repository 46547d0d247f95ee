import Babeltrace.ItemSeqOffsets

/-!
# Progress of the decoder

With a medium which never throws `bt2c::TryAgain`, the iteration of a finite item sequence ends: an
event record and a packet consume at least one bit, and what's left to do within them decreases.
-/
namespace Babeltrace.ItemSeq
open Machine Program

def Exc.IsError : Exc → Prop
  | .error _ _ => True
  | _ => False

structure Dec.Takes (bytes : List UInt8) (n : ℕ) (d d' : Dec) : Prop where
  fits : d'.Fits bytes False
  advances : d.Advances n d'
  reads : d.Reads d'

/-- The bits of a field of class `fc`, `pad` bits after the head, are within the content of the packet
and the data, and the field has the byte order of the last one unless it begins a byte. -/
structure CanRead (bytes : List UInt8) (p : ReadParams) (fc : FixedLenBitArrayFc) (pad : ℕ) (d : Dec) :
    Prop where
  content : pad + fc.len ≤ d.remainingPktContentLen
  data : d.headOffsetInItemSeq + pad + fc.len ≤ 8 * bytes.length
  byteOrder : p.lenBits = 0 → (d.headOffsetInCurPkt + pad) % 8 ≠ 0 →
    ∀ last ∈ d.lastFixedLenBitArrayFieldByteOrder, last = fc.byteOrder

/-- There's data after the head which belongs to the content of the packet. -/
def Dec.HasMore (bytes : List UInt8) (d : Dec) : Prop :=
  if d.expectedContentLen = infDataLen then d.headOffsetInItemSeq < 8 * bytes.length
  else d.headOffsetInCurPkt ≠ d.expectedContentLen

/-! ## Reading loops -/

variable {len head : ℕ} {fc : Fc} {task : Task} {scope : Scope} {n : ℕ} {d : Dec} {c : Bool}
  {a : Agenda} {phase : Phase}

section
variable {bytes : List UInt8} {m : Medium} {d d' : Dec}

theorem Dec.Fits.length_bufAtHead (hd : d.Fits bytes False) :
    d.bufAtHead.length = d.buf.length - (d.headOffsetInCurPkt - d.bufOffsetInCurPkt) / 8 := by
  rw [Dec.bufAtHead, List.length_drop, safeSub_of_le hd.bufOffset_le]

theorem readBuf_of_has {size : ℕ} (hd : d.Fits bytes False) (h : d.Has False len)
    (hsize : 8 * size ≤ d.headOffsetInCurPkt % 8 + len + 7) :
    readBuf size d = .ok (d.bufAtHead.take size) d := by
  refine if_pos ?_
  have hlength := hd.length_bufAtHead
  have hmod := hd.bufOffset_mod
  have hle := hd.bufOffset_le
  have hhas := h.1
  omega

theorem tryHaveData_total (hready : m.Ready) (len : ℕ) (d : Dec) :
    ∃ b d', tryHaveData m len d = .ok b d' := by
  cases h : tryHaveData m len d with
  | ok b d' => exact ⟨b, d', rfl⟩
  | error e d' =>
    simp only [tryHaveData] at h
    split at h
    · cases h
    · split at h
      · cases h
      · cases h
      · rename_i hm
        exact absurd hm (hready _ _)

theorem Dec.Fits.offset_le (h : d.Fits bytes False) : d.headOffsetInItemSeq ≤ 8 * bytes.length := by
  have hhead := h.head_le
  have hbuf := h.buf_le
  rw [Dec.headOffsetInItemSeq]
  omega

theorem safeSub_add {a b k : ℕ} (h : k ≤ safeSub a b) : safeSub a (b + k) = safeSub a b - k := by
  unfold safeSub at *
  split at h <;> split <;> omega

theorem CanRead.of_moved {p : ReadParams} {fc : FixedLenBitArrayFc} {pad : ℕ} (hmoved : d.Moved d')
    (hhead : d'.headOffsetInCurPkt = d.headOffsetInCurPkt + pad) (hpad : pad ≤ d.remainingPktContentLen) :
    CanRead bytes p fc 0 d' ↔ CanRead bytes p fc pad d := by
  have hremaining : d'.remainingPktContentLen = d.remainingPktContentLen - pad := by
    rw [Dec.remainingPktContentLen, hhead, show d'.expectedContentLen = d.expectedContentLen by
      rw [hmoved]]
    exact safeSub_add hpad
  have hoffset : d'.headOffsetInItemSeq = d.headOffsetInItemSeq + pad := by
    rw [Dec.headOffsetInItemSeq, hhead, show d'.curPktOffsetInItemSeq = d.curPktOffsetInItemSeq by
      rw [hmoved], ← Nat.add_assoc]
    rfl
  have hlast : d'.lastFixedLenBitArrayFieldByteOrder = d.lastFixedLenBitArrayFieldByteOrder := by
    rw [hmoved]
  constructor
  · rintro ⟨hcontent, hdata, horder⟩
    rw [hlast, hhead] at horder
    exact ⟨by omega, by omega, horder⟩
  · rintro ⟨hcontent, hdata, horder⟩
    refine ⟨by omega, by omega, ?_⟩
    rw [hlast, hhead]
    exact horder

theorem checkLastByteOrder_decides (fc : FixedLenBitArrayFc) :
    Decides Exc.IsError (d.headOffsetInCurPkt % 8 ≠ 0 →
      ∀ last ∈ d.lastFixedLenBitArrayFieldByteOrder, last = fc.byteOrder) (checkLastByteOrder fc) d
      fun _ d' => d' = d := by
  rw [Decides, checkLastByteOrder, get_bind_apply]
  cases d.lastFixedLenBitArrayFieldByteOrder with
  | none => exact ⟨by simp, rfl⟩
  | some last =>
    by_cases h : d.headOffsetInCurPkt % 8 ≠ 0 ∧ fc.byteOrder ≠ last
    · simp only [if_pos h]
      exact ⟨fun hC => h.2 (hC h.1 last rfl).symm, trivial⟩
    · simp only [if_neg h]
      refine ⟨?_, rfl⟩
      rintro hhead _ ⟨⟩
      by_contra hne
      exact h ⟨hhead, Ne.symm hne⟩

section
variable (hm : m.Over bytes) (hready : m.Ready)
include hm hready

theorem tryHaveData_spec (hlen : 0 < len) (hd : d.Fits bytes False) :
    ∃ b d', tryHaveData m len d = .ok b d' ∧ d.Requests d' ∧ d'.Fits bytes False ∧
      (b = true → d'.Has False len) ∧
      (b = true ↔ d.headOffsetInItemSeq + len ≤ 8 * bytes.length) := by
  obtain ⟨b, d', h⟩ := tryHaveData_total hready len d
  have hrequests := (tryHaveData_requests m len).ok h
  obtain ⟨hfits, hhas⟩ := (tryHaveData_fits hm hlen).ok hd h
  refine ⟨b, d', h, hrequests, hfits, fun hb => ⟨hhas hb, False.elim⟩, ?_⟩
  cases b with
  | true =>
    have hle := hfits.buf_le
    have hhas := hhas rfl
    have hpkt : d'.curPktOffsetInItemSeq = d.curPktOffsetInItemSeq := by rw [hrequests]
    have hhead : d'.headOffsetInCurPkt = d.headOffsetInCurPkt := by rw [hrequests]
    simp only [Dec.headOffsetInItemSeq, true_iff]
    omega
  | false =>
    have hmod := hd.pktOffset_mod
    simp only [tryHaveData] at h
    split at h
    · cases h
    · split at h
      · cases h
      · rename_i hno
        have hover := hm (d.curPktOffsetInItemSeq / 8 + d.headOffsetInCurPkt / 8)
          ((len + 7 + d.headOffsetInCurPkt % 8) / 8) (by omega)
        rw [hno] at hover
        simp only [Dec.headOffsetInItemSeq, Bool.false_eq_true, false_iff]
        omega
      · cases h

theorem requireData_decides (hlen : 0 < len) (hd : d.Fits bytes False) :
    Decides Exc.IsError (d.headOffsetInItemSeq + len ≤ 8 * bytes.length) (requireData m len) d
      fun _ d' => d.Requests d' ∧ d'.Fits bytes False ∧ d'.Has False len := by
  obtain ⟨b, d', h, hrequests, hfits, hhas, hb⟩ := tryHaveData_spec hm hready hlen hd
  rw [Decides, requireData, bind_apply, h]
  cases b with
  | true => exact ⟨hb.mp rfl, hrequests, hfits, hhas rfl⟩
  | false => exact ⟨fun hle => Bool.false_ne_true (hb.mpr hle), trivial⟩

theorem requireContentData_decides (hlen : 0 < len) (hd : d.Fits bytes False) :
    Decides Exc.IsError
      (len ≤ d.remainingPktContentLen ∧ d.headOffsetInItemSeq + len ≤ 8 * bytes.length)
      (requireContentData m len) d
      fun _ d' => d.Requests d' ∧ d'.Fits bytes False ∧ d'.Has False len := by
  rw [Decides, requireContentData, get_bind_apply]
  by_cases h : d.remainingPktContentLen < len
  · simp only [h, if_true]
    exact ⟨fun hC => by omega, trivial⟩
  · simp only [h, if_false]
    exact (requireData_decides hm hready hlen hd).imp (iff_and_self.mpr fun _ => not_lt.mp h)
      fun _ _ _ h => h

theorem readFixedLenInt_decides (isSigned : Bool) (p : ReadParams) (fc : FixedLenBitArrayFc)
    (hp : p.lenBits ≤ fc.len + 7) (hd : d.Fits bytes False) :
    Decides Exc.IsError (CanRead bytes p fc 0 d) (readFixedLenInt m isSigned p fc) d
      fun _ d' => d.Takes bytes fc.len d' := by
  let order : Prop := p.lenBits = 0 → d.headOffsetInCurPkt % 8 ≠ 0 →
    ∀ last ∈ d.lastFixedLenBitArrayFieldByteOrder, last = fc.byteOrder
  have hcan : (fc.len ≤ d.remainingPktContentLen ∧ d.headOffsetInItemSeq + fc.len ≤ 8 * bytes.length) ∧
      order ↔ CanRead bytes p fc 0 d :=
    ⟨fun h => ⟨by omega, by omega, h.2⟩,
      fun h => ⟨⟨by have := h.content; omega, by have := h.data; omega⟩, h.byteOrder⟩⟩
  refine Decides.imp (Q := fun _ _ => True) (.bind (requireContentData_decides hm hready fc.len_pos hd)
    fun _ d₁ h => ?_) hcan fun _ d' h _ =>
    ⟨(readFixedLenInt_fits hm isSigned p fc).ok hd h,
    (readFixedLenInt_advances d isSigned p fc).ok ⟨rfl, rfl, id⟩ h,
    (readFixedLenInt_reads m isSigned p fc).ok h⟩
  obtain ⟨hrequests, hd₁, hhas⟩ := h
  rw [Decides, get_bind_apply]
  by_cases h0 : p.lenBits = 0
  · have hhead : d₁.headOffsetInCurPkt = d.headOffsetInCurPkt := by rw [hrequests]
    have hlast : d₁.lastFixedLenBitArrayFieldByteOrder = d.lastFixedLenBitArrayFieldByteOrder := by
      rw [hrequests]
    have hcheck := checkLastByteOrder_decides (d := d₁) fc
    rw [hhead, hlast] at hcheck
    simp only [h0, if_true]
    refine Decides.imp (C := _ ∧ True) (.bind hcheck fun _ d₂ hd₂ => ?_) ?_ fun _ _ _ h => h
    · rw [hd₂, Decides, bind_apply, readBuf_of_has hd₁ hhas (by omega)]
      exact ⟨trivial, trivial⟩
    · exact ⟨fun h _ => h.1, fun h => ⟨h h0, trivial⟩⟩
  · simp only [h0, if_false]
    rw [bind_apply, readBuf_of_has hd₁ hhas (by omega)]
    exact ⟨fun h => absurd h h0, trivial⟩

theorem readRawData_wp (remaining : ℕ) (hd : d.Fits bytes False) :
    Wp Exc.IsError (readRawData m remaining) d fun bs d' =>
      d.Takes bytes (8 * bs.length) d' ∧ (remaining ≠ 0 → bs ≠ []) := by
  refine Wp.imp (Q := fun bs _ => remaining ≠ 0 → bs ≠ []) ?_ fun bs d' h hbs =>
    ⟨⟨(readRawData_fits hm remaining).ok hd h, (readRawData_advances d remaining).ok ⟨rfl, rfl, id⟩ h,
      (readRawData_reads m remaining).ok h⟩, hbs⟩
  refine (requireContentData_decides hm hready (by decide) hd).wp.bind fun _ d₁ ⟨_, hd₁, hhas⟩ => ?_
  have hlength := hd₁.length_bufAtHead
  have hrem := hd₁.remainingBufLen_eq
  have hmod := hd₁.bufOffset_mod
  have hle := hd₁.bufOffset_le
  have hhas := hhas.1
  rw [Wp, get_bind_apply]
  by_cases h : d₁.remainingPktContentLen < 8 * min (d₁.remainingBufLen / 8) remaining
  · simp only [h, if_true]
    trivial
  · simp only [h, if_false]
    have hread : readBuf (min (d₁.remainingBufLen / 8) remaining) d₁ =
        .ok (d₁.bufAtHead.take (min (d₁.remainingBufLen / 8) remaining)) d₁ := if_pos (by omega)
    rw [bind_apply, hread]
    intro hne hnil
    have hlen := congrArg List.length hnil
    rw [List.length_take, List.length_nil] at hlen
    omega

theorem readSubstr_wp (cu : CodeUnit) (part : List UInt8) (hd : d.Fits bytes False) :
    Wp Exc.IsError (readSubstr m cu part) d fun r d' =>
      d.Takes bytes (8 * r.1.length) d' ∧ (r.2.1 = false → r.1 ≠ []) := by
  refine Wp.imp (Q := fun r _ => r.2.1 = false → r.1 ≠ []) ?_ fun r d' h hr =>
    ⟨⟨(readSubstr_fits hm cu part).ok hd h, (readSubstr_advances d cu part).ok ⟨rfl, rfl, id⟩ h,
      (readSubstr_reads m cu part).ok h⟩, hr⟩
  refine (requireContentData_decides hm hready (by decide) hd).wp.bind fun _ d₁ ⟨_, hd₁, hhas⟩ => ?_
  have hlength := hd₁.length_bufAtHead
  have hrem := hd₁.remainingBufLen_eq
  have hmod := hd₁.bufOffset_mod
  have hle := hd₁.bufOffset_le
  have hhas := hhas.1
  have hread : readBuf (d₁.remainingBufLen / 8) d₁ =
      .ok (d₁.bufAtHead.take (d₁.remainingBufLen / 8)) d₁ := if_pos (by omega)
  rw [Wp, get_bind_apply, bind_apply, hread]
  generalize hbs : d₁.bufAtHead.take (d₁.remainingBufLen / 8) = bs
  have hpos : bs.length ≠ 0 := by
    rw [← hbs, List.length_take]
    omega
  simp only
  generalize findNullCp cu part bs = found
  by_cases h : d₁.remainingPktContentLen < 8 * found.1.getD bs.length
  · simp only [h, if_true]
    trivial
  · simp only [h, if_false]
    intro hfound
    have hnone : found.1 = none := by simpa using hfound
    intro hnil
    have hlen := congrArg List.length hnil
    rw [hnone, Option.getD_none, List.take_length] at hlen
    exact hpos hlen

omit hm hready in
theorem appendVarLenIntByte_wp {isSigned : Bool} {byte : ℕ} (hd : d.Fits bytes False)
    (hhas : d.Has False 8) (hlen : d.curVarLenIntLen + 7 * (n + 1) = 70) :
    Wp Exc.IsError (appendVarLenIntByte isSigned byte) d fun _ d' => d'.Fits bytes False ∧
      (128 ≤ byte → 0 < n ∧ d'.curVarLenIntLen + 7 * n = 70) := by
  cases happend : appendVarLenIntByte isSigned byte d with
  | error e d' =>
    rw [Wp, happend]
    rw [appendVarLenIntByte, get_bind_apply] at happend
    split at happend <;> cases happend
    trivial
  | ok _ d' =>
    refine .of_eq happend
      ⟨(appendVarLenIntByte_fits isSigned byte).ok ⟨hd, hhas⟩ happend, fun hbyte => ?_⟩
    rw [appendVarLenIntByte, get_bind_apply] at happend
    split at happend
    · obtain ⟨_, _, hfail, -⟩ := bind_eq_ok happend
      cases hfail
    · rename_i hlast
      cases happend
      have hle : d.curVarLenIntLen + 7 ≤ 63 := by
        by_contra hgt
        exact hlast ⟨by omega, .inl hbyte⟩
      simp only [if_neg (not_lt.mpr hle)]
      omega

theorem varLenLoop_wp (isSigned : Bool) (hn : 0 < n) (hlen : d.curVarLenIntLen + 7 * n = 70)
    (hd : d.Fits bytes False) :
    Wp Exc.IsError (varLenLoop m isSigned n) d fun _ d' => ∃ k, 0 < k ∧ d.Takes bytes (8 * k) d' := by
  refine Wp.imp (Q := fun _ _ => True) ?_ fun r d' h _ => ?_
  · induction n generalizing d with
    | zero => exact absurd hn (lt_irrefl 0)
    | succ n ih =>
      refine (requireContentData_decides hm hready (by decide) hd).wp.bind fun _ d₁ h => ?_
      obtain ⟨hrequests, hd₁, hhas⟩ := h
      have hlen₁ : d₁.curVarLenIntLen = d.curVarLenIntLen := by rw [hrequests]
      rw [Wp, bind_apply, readBuf_of_has hd₁ hhas (by omega)]
      generalize (d₁.bufAtHead.take 1).headD 0 = byte
      simp only
      refine (appendVarLenIntByte_wp (n := n) hd₁ hhas (by omega)).bind fun _ d₂ h => ?_
      obtain ⟨hd₂, hnext⟩ := h
      split
      · trivial
      · rename_i hbyte
        obtain ⟨hn, hlen⟩ := hnext (not_lt.mp hbyte)
        exact ih hn hlen hd₂
  · obtain ⟨k, hk, hadv, -⟩ := varLenLoop_advances (j := 10 - n) (by omega) (by omega) h
    exact ⟨k, hk, (varLenLoop_fits hm isSigned n).ok hd h, hadv, (varLenLoop_reads m isSigned n).ok h⟩

theorem skipLoop_decides (c : Bool) {r : ℕ} (hr : r ≤ n)
    (hcontent : c = true → r ≤ d.remainingPktContentLen) (hd : d.Fits bytes False) :
    Decides Exc.IsError (d.headOffsetInItemSeq + r ≤ 8 * bytes.length) (skipLoop m c n) (d, r)
      fun _ s => d.Takes bytes r s.1 := by
  refine Decides.imp (Q := fun _ _ => True) ?_ Iff.rfl fun _ s h _ => ?_
  · induction n generalizing d r with
    | zero =>
      obtain rfl := Nat.le_zero.mp hr
      exact .of_ok rfl hd.offset_le trivial
    | succ n ih =>
      by_cases h0 : r = 0
      · subst h0
        exact .of_ok rfl hd.offset_le trivial
      rw [Decides, skipLoop]
      simp only [h0, if_false]
      have hrequire : Decides Exc.IsError (d.headOffsetInItemSeq + 1 ≤ 8 * bytes.length)
          (if c then requireContentData m 1 else requireData m 1) d
          fun _ d' => d.Requests d' ∧ d'.Fits bytes False ∧ d'.Has False 1 := by
        cases c with
        | true =>
          have hcontent := hcontent rfl
          exact (requireContentData_decides hm hready Nat.one_pos hd).imp
            (and_iff_right (by omega)) fun _ _ _ h => h
        | false => exact requireData_decides hm hready Nat.one_pos hd
      cases hd₁ : (if c then requireContentData m 1 else requireData m 1) d with
      | error e d₁ =>
        obtain ⟨hno, he⟩ := hrequire.error hd₁
        exact ⟨by omega, he⟩
      | ok _ d₁ =>
        obtain ⟨-, hrequests, hfits, hhas⟩ := hrequire.ok hd₁
        have hrem := hfits.remainingBufLen_eq
        have hhead := hfits.head_le
        have hhas := hhas.1
        have hpos : min r d₁.remainingBufLen ≠ 0 := by omega
        have hle : min r d₁.remainingBufLen ≤ r := min_le_left _ _
        generalize hk : min r d₁.remainingBufLen = k at hpos hle
        simp only [hk, hpos, if_false]
        have hremaining : d₁.remainingPktContentLen = d.remainingPktContentLen := by
          rw [hrequests]
          rfl
        have hoffset : d₁.headOffsetInItemSeq = d.headOffsetInItemSeq := by
          rw [hrequests]
          rfl
        refine (ih (by omega) (fun hc => ?_) (hfits.consume (by omega) False.elim)).imp ?_
          fun _ _ _ h => h
        · have hcontent := hcontent hc
          have hadd := safeSub_add (k := k)
            (show k ≤ safeSub d₁.expectedContentLen d₁.headOffsetInCurPkt by
              change k ≤ d₁.remainingPktContentLen
              omega)
          change r - k ≤ safeSub d₁.expectedContentLen (d₁.headOffsetInCurPkt + k)
          rw [hadd]
          change r - k ≤ d₁.remainingPktContentLen - k
          omega
        · rw [← hoffset]
          simp only [Dec.headOffsetInItemSeq]
          omega
  · obtain ⟨hskipping, h0⟩ := (skipLoop_fits hm c (d.headOffsetInCurPkt + r) n).ok
      (s := (d, r)) ⟨hd, rfl, False.elim⟩ h
    exact ⟨hskipping.1, skipLoop_advances h, (skipLoop_reads m c n).ok h⟩

end
end

/-! ## What's left to do -/

mutual

def Fc.weight (keyVals : ℕ → ℕ) : Fc → ℕ
  | .scalar _ => 1
  | .strBlob _ => 3
  | .staticLenArray _ len elemFc => 2 + len * elemFc.weight keyVals
  | .staticLenArrayWithMetadataStreamUuidRole _ _ => 3
  | .dynLenArray _ index elemFc => 2 + keyVals index * elemFc.weight keyVals
  | .struct _ members => 2 + Fc.weights keyVals members
  | .optional _ _ fc => 2 + fc.weight keyVals
  | .variant _ _ _ opts => 2 + Fc.weights keyVals opts

def Fc.weights (keyVals : ℕ → ℕ) : List Fc → ℕ
  | [] => 0
  | fc :: fcs => fc.weight keyVals + Fc.weights keyVals fcs

end

def Task.weight (keyVals : ℕ → ℕ) : Task → ℕ
  | .field fc => fc.weight keyVals
  | _ => 1

def tasksWeight (keyVals : ℕ → ℕ) (tasks : List Task) : ℕ := (tasks.map (Task.weight keyVals)).sum

section
variable {keyVals : ℕ → ℕ}

@[simp] theorem tasksWeight_nil : tasksWeight keyVals [] = 0 := rfl

@[simp] theorem tasksWeight_cons (task : Task) (tasks : List Task) :
    tasksWeight keyVals (task :: tasks) = task.weight keyVals + tasksWeight keyVals tasks := by
  simp [tasksWeight]

@[simp] theorem tasksWeight_append (ts ts' : List Task) :
    tasksWeight keyVals (ts ++ ts') = tasksWeight keyVals ts + tasksWeight keyVals ts' := by
  simp [tasksWeight]

theorem tasksWeight_replicate (n : ℕ) (task : Task) :
    tasksWeight keyVals (List.replicate n task) = n * task.weight keyVals := by
  simp [tasksWeight]

theorem tasksWeight_fields (fcs : List Fc) :
    tasksWeight keyVals (fcs.map .field) = Fc.weights keyVals fcs := by
  induction fcs with
  | nil => rfl
  | cons fc fcs ih => rw [List.map_cons, tasksWeight_cons, ih, Fc.weights, Task.weight]

theorem Fc.weight_le_weights (keyVals : ℕ → ℕ) {fcs : List Fc} (h : fc ∈ fcs) :
    fc.weight keyVals ≤ Fc.weights keyVals fcs := by
  induction fcs with
  | nil => cases h
  | cons fc' fcs ih =>
    rw [Fc.weights]
    obtain rfl | h := List.mem_cons.mp h
    · omega
    · have := ih h
      omega

theorem tasksWeight_rawDataTasks (len : ℕ) : tasksWeight keyVals (rawDataTasks len) ≤ 1 := by
  unfold rawDataTasks
  split <;> simp [Task.weight]

theorem begin_weight {kind : ContainerKind} {info : BeginInfo} {tasks : List Task}
    (h : fc.begin d = .ok (kind, info, tasks)) :
    tasksWeight d.savedKeyVals tasks + 1 < fc.weight d.savedKeyVals := by
  cases fc with
  | scalar sfc => cases h
  | strBlob sfc =>
    cases sfc with
    | nullTerminatedStr | staticLenBlobWithMetadataStreamUuidRole =>
      cases h
      simp [Task.weight, Fc.weight]
    | _ =>
      cases h
      exact Nat.lt_succ_of_le (Nat.succ_le_succ (tasksWeight_rawDataTasks _))
  | staticLenArray | dynLenArray =>
    cases h
    rw [tasksWeight_replicate, Fc.weight, Task.weight]
    omega
  | staticLenArrayWithMetadataStreamUuidRole align elemFc =>
    cases h
    simp [Task.weight, Fc.weight]
  | struct align members =>
    cases h
    rw [tasksWeight_fields, Fc.weight]
    omega
  | optional sel index fc =>
    cases h
    rw [Fc.weight]
    split
    · simp only [tasksWeight_cons, tasksWeight_nil, Task.weight]
      omega
    · rw [tasksWeight_nil]
      omega
  | variant isSigned ranges index opts =>
    simp only [Fc.begin] at h
    split at h
    · cases h
    · split at h
      · cases h
      · rename_i hopt
        cases h
        have hle := Fc.weight_le_weights d.savedKeyVals (List.mem_of_getElem? hopt)
        simp only [tasksWeight_cons, tasksWeight_nil, Task.weight, Fc.weight]
        omega

end

theorem Fc.of_all {p : Fc → Bool} (h : fc.all p = true) : p fc = true := by
  cases fc with
  | scalar | strBlob | staticLenArrayWithMetadataStreamUuidRole => exact h
  | _ =>
    rw [Fc.all, Bool.and_eq_true] at h
    exact h.1

theorem begin_isError {e : Exc} (hscalar : ∀ sfc, fc ≠ .scalar sfc) (hfc : fc.hasOpts = true)
    (h : fc.begin d = .error e) : e.IsError := by
  cases fc with
  | scalar sfc => exact absurd rfl (hscalar sfc)
  | variant isSigned ranges index opts =>
    simp only [Fc.begin] at h
    split at h
    · cases h
      trivial
    · rename_i i hfind
      split at h
      · rename_i hopt
        have hlen : ranges.length = opts.length := of_decide_eq_true (Bool.and_eq_true_iff.mp hfc).2
        have hlt : i < ranges.length := (List.findIdx?_eq_some_iff_getElem.mp hfind).1
        rw [List.getElem?_eq_none_iff] at hopt
        omega
      · cases h
  | strBlob sfc => cases sfc <;> cases h
  | _ => cases h

/-! ## Undefined behaviour -/

def ScalarFc.isKind (kind : FixedLenKind) : ScalarFc → Bool
  | .fixedLen kind' _ _ _ => kind' = kind
  | _ => false

/-- The handler of a boolean or signed integer field of which the value is saved takes the class of
the next field, if it's a scalar one, as one of its own type. -/
def Mixes (kind : FixedLenKind) (indexes : List ℕ) (rest : List Task) : Prop :=
  (kind ∈ [.bool, .sInt] ∧ indexes ≠ []) ∧ ∃ sfc ∈ nextScalar rest, sfc.isKind kind = false

/-- What follows has undefined behaviour: an event record begins without a data stream class, or the
handler of the next field uses the wrong class. -/
def Agenda.Undefined (bytes : List UInt8) (a : Agenda) : Prop :=
  match a.tasks with
  | [] => a.phase = .tryBeginEventRecord ∧ a.dec.dataStreamInfo.cls = none ∧ a.dec.HasMore bytes
  | .field (.scalar (.fixedLen kind fc _ indexes)) :: rest =>
    Mixes kind indexes rest ∧ CanRead bytes fc.readParams fc (a.dec.alignLen fc.align) a.dec
  | _ => False

theorem afterFixedLen_cases (kind : FixedLenKind) (fc : FixedLenBitArrayFc)
    (roles : List UIntFieldRole) (indexes : List ℕ) (val : ℤ) (i : Item) (rest : List Task)
    (phase : Phase) (d : Dec) :
    (Mixes kind indexes rest ∧
      afterFixedLen kind (.fixedLen kind fc roles indexes) val i rest phase d = .failed .fault) ∨
    (¬Mixes kind indexes rest ∧ ∃ indexes',
      afterFixedLen kind (.fixedLen kind fc roles indexes) val i rest phase d =
        .item i ⟨saveKeyVal indexes' val d, rest, phase⟩) := by
  unfold afterFixedLen
  by_cases hkeyed : kind ∈ [.bool, .sInt] ∧
      (ScalarFc.fixedLen kind fc roles indexes).keyValSavingIndexes ≠ []
  · rw [if_pos hkeyed]
    cases hnext : nextScalar rest with
    | none =>
      refine .inr ⟨fun h => ?_, indexes, by simp⟩
      obtain ⟨sfc, hsfc, -⟩ := h.2
      rw [hnext] at hsfc
      cases hsfc
    | some sfc =>
      by_cases hkind : sfc.isKind kind = true
      · refine .inr ⟨fun h => ?_, ?_⟩
        · obtain ⟨sfc', hsfc', hkind'⟩ := h.2
          rw [hnext] at hsfc'
          cases hsfc'
          exact Bool.false_ne_true (hkind'.symm.trans hkind)
        · cases sfc with
          | varLenInt => cases hkind
          | fixedLen kind' fc' roles' indexes' =>
            obtain rfl : kind' = kind := of_decide_eq_true hkind
            exact ⟨indexes', by simp⟩
      · refine .inl ⟨⟨hkeyed, sfc, hnext, Bool.not_eq_true _ ▸ hkind⟩, ?_⟩
        cases sfc with
        | varLenInt => rfl
        | fixedLen kind' fc' roles' indexes' =>
          have hne : kind' ≠ kind := fun h => hkind (decide_eq_true h)
          simp [hne]
  · rw [if_neg hkeyed]
    exact .inr ⟨fun h => hkeyed h.1, [], rfl⟩

/-! ## Tasks -/

structure Dec.Frame (c : Bool) (d d' : Dec) : Prop where
  streamCls : d'.dataStreamInfo.cls = d.dataStreamInfo.cls
  recordCls : d'.eventRecordInfo.cls = d.eventRecordInfo.cls
  lens : c = true → d'.expectedTotalLen = d.expectedTotalLen ∧
    d'.expectedContentLen = d.expectedContentLen

theorem Dec.Frame.trans {d' d'' : Dec} (h : d.Frame c d') (h' : d'.Frame c d'') :
    d.Frame c d'' where
  streamCls := h'.streamCls.trans h.streamCls
  recordCls := h'.recordCls.trans h.recordCls
  lens hc := ⟨(h'.lens hc).1.trans (h.lens hc).1, (h'.lens hc).2.trans (h.lens hc).2⟩

theorem Dec.Reads.frame (c : Bool) {d' : Dec} (h : d.Reads d') : d.Frame c d' := by
  rw [h]
  exact ⟨rfl, rfl, fun _ => ⟨rfl, rfl⟩⟩

theorem handleRoles_frame {roles : List UIntFieldRole} {val : ℕ}
    (hroles : c = true → ∀ role ∈ roles, role ≠ .pktTotalLen ∧ role ≠ .pktContentLen) :
    d.Frame c (handleRoles roles len val d).1 := by
  unfold handleRoles
  generalize (none : Option Item) = i
  induction roles generalizing d i with
  | nil => exact ⟨rfl, rfl, fun _ => ⟨rfl, rfl⟩⟩
  | cons role roles ih =>
    have hrole : d.Frame c (handleUIntFieldRole role len val d) := by
      cases role with
      | pktTotalLen => exact ⟨rfl, rfl, fun hc => absurd rfl (hroles hc _ List.mem_cons_self).1⟩
      | pktContentLen => exact ⟨rfl, rfl, fun hc => absurd rfl (hroles hc _ List.mem_cons_self).2⟩
      | _ => exact ⟨rfl, rfl, fun _ => ⟨rfl, rfl⟩⟩
    exact hrole.trans (ih (fun hc role' h => hroles hc role' (List.mem_cons_of_mem _ h)) _)

def Item.isPktBegin : Item → Bool
  | .pktBegin => true
  | _ => false

def Item.isEventRecordBegin : Item → Bool
  | .eventRecordBegin => true
  | _ => false

def Item.isEventRecordEnd : Item → Bool
  | .eventRecordEnd => true
  | _ => false

def Item.isMark (i : Item) : Bool := i.isPktBegin || i.isEventRecordBegin || i.isEventRecordEnd

/-- What a task does: it reads bits, or less is left to do. -/
structure Worked (bytes : List UInt8) (c : Bool) (d : Dec) (tasks : List Task) (i : Item)
    (a : Agenda) : Prop where
  fits : a.dec.Fits bytes False
  pktOffset : a.dec.curPktOffsetInItemSeq = d.curPktOffsetInItemSeq
  varLen : d.curVarLenIntLen = 0 → a.dec.curVarLenIntLen = 0
  frame : d.Frame c a.dec
  mark : i.isMark = false
  progress : d.headOffsetInCurPkt < a.dec.headOffsetInCurPkt ∨
    a.dec.headOffsetInCurPkt = d.headOffsetInCurPkt ∧ d.Frame true a.dec ∧
      a.dec.savedKeyVals = d.savedKeyVals ∧
      tasksWeight d.savedKeyVals a.tasks < tasksWeight d.savedKeyVals tasks

/-- What a task or a phase does, except to `Worked` -/
def Works (bytes : List UInt8) (c : Bool) (a : Agenda) : Answer → Prop
  | .item i a' => Worked bytes c a.dec a.tasks i a' ∧ ¬a.Undefined bytes
  | .failed e => e.IsError ∧ ¬a.Undefined bytes ∨ e = .fault ∧ a.Undefined bytes
  | _ => False

section
variable {bytes : List UInt8} {c : Bool} {m : Medium} {d d' d₁ d₂ : Dec} {tasks rest : List Task}
  {phase : Phase} {i : Item} {n n' : ℕ} {α : Type} {Q : Answer → Prop} {p : DecM α}
  {R : α → Dec → Prop} {k : α → Dec → Answer} {sfc : ScalarFc}

theorem Dec.Takes.trans (h : d.Takes bytes n d') (h' : d'.Takes bytes n' d₁) :
    d.Takes bytes (n + n') d₁ := ⟨h'.fits, h.advances.trans h'.advances, h.reads.trans h'.reads⟩

theorem Worked.of_read (h : d.Takes bytes n d₁) (hn : 0 < n) (hfits : a.dec.Fits bytes False)
    (hadv : d₁.Advances 0 a.dec) (hframe : d₁.Frame c a.dec) (hmark : i.isMark = false) :
    Worked bytes c d tasks i a where
  fits := hfits
  pktOffset := hadv.pktOffset.trans h.advances.pktOffset
  varLen h₀ := hadv.varLen (h.advances.varLen h₀)
  frame := (h.reads.frame c).trans hframe
  mark := hmark
  progress := by
    have hhead := h.advances.head
    have hhead' := hadv.head
    omega

theorem Worked.of_takes (h : d.Takes bytes n a.dec) (hmark : i.isMark = false)
    (hweight : n = 0 → tasksWeight d.savedKeyVals a.tasks < tasksWeight d.savedKeyVals tasks) :
    Worked bytes c d tasks i a where
  fits := h.fits
  pktOffset := h.advances.pktOffset
  varLen := h.advances.varLen
  frame := h.reads.frame c
  mark := hmark
  progress := by
    have hhead := h.advances.head
    obtain rfl | hn := Nat.eq_zero_or_pos n
    · refine .inr ⟨hhead, h.reads.frame true, ?_, hweight rfl⟩
      rw [h.reads]
    · exact .inl (by omega)

theorem tryDec_decides {C : Prop} (hp : Decides Exc.IsError C p d R)
    (hk : ∀ a d', C → R a d' → Q (k a d')) (hfailed : ∀ e : Exc, ¬C → e.IsError → Q (.failed e)) :
    Q (tryDec p tasks phase d k) := by
  unfold tryDec
  cases h : p d with
  | ok a d' => exact hk a d' (hp.ok h).1 (hp.ok h).2
  | error e d' =>
    obtain ⟨hno, he⟩ := hp.error h
    cases e with
    | error | fault => exact hfailed _ hno he
    | tryAgain => exact he.elim

theorem tryDec_works (hp : Wp Exc.IsError p d R) (hk : ∀ a d', R a d' → Q (k a d'))
    (hfailed : ∀ e : Exc, e.IsError → Q (.failed e)) : Q (tryDec p tasks phase d k) := by
  unfold tryDec
  cases h : p d with
  | ok a d' => exact hk a d' (hp.ok h)
  | error e d' =>
    have he := hp.error h
    cases e with
    | error | fault => exact hfailed _ he
    | tryAgain => exact he.elim

theorem tryAlign_works {align : ℕ} {k : Dec → Answer} (hm : m.Over bytes) (hready : m.Ready)
    (hd : d.Fits bytes False)
    (hk : ∀ d', d.alignLen align ≤ d.remainingPktContentLen → d.Moved d' →
      d.Takes bytes (d.alignLen align) d' → Q (k d'))
    (hfailed : ∀ e : Exc, e.IsError → ¬(d.alignLen align ≤ d.remainingPktContentLen ∧
      d.headOffsetInItemSeq + d.alignLen align ≤ 8 * bytes.length) → Q (.failed e)) :
    Q (tryAlign m align tasks phase d k) := by
  unfold tryAlign
  split
  · rename_i h0
    exact hk d (by omega) (.refl d) (by rw [h0]; exact ⟨hd, ⟨rfl, rfl, id⟩, .refl d⟩)
  · split
    · exact hfailed _ trivial fun h => by omega
    · rename_i hcontent
      have hskip := skipLoop_decides hm hready true le_rfl (fun _ => not_lt.mp hcontent) hd
      split
      · rename_i hs
        exact hk _ (not_lt.mp hcontent) (skipLoop_moved _ hs).1 (hskip.ok hs).2
      · rename_i hs
        exact (hskip.error hs).2.elim
      · rename_i hs
        exact hfailed _ (hskip.error hs).2 fun h => (hskip.error hs).1 h.2

theorem afterUInt_works {val : ℤ} (h : d.Takes bytes n d₁) (hn : 0 < n)
    (hsfc : (Fc.scalar sfc).all (Fc.rolesOk c) = true) (hmark : i.isMark = false) :
    (afterUInt sfc len val i rest phase d₁).Gives fun _ a => Worked bytes c d tasks i a := by
  have hroles : c = true → ∀ role ∈ sfc.roles, role ≠ .pktTotalLen ∧ role ≠ .pktContentLen := by
    intro hc role hmem
    subst hc
    simp only [Fc.all, Fc.rolesOk, Bool.not_true, Bool.false_or, Fc.hasNoPktLenRole,
      List.all_eq_true, decide_eq_true_eq] at hsfc
    exact hsfc role hmem
  have hsaved : (saveKeyVal sfc.keyValSavingIndexes val.toNat d₁).Fits bytes (false = true) :=
    ⟨h.fits.1, h.fits.2, h.fits.3, h.fits.4, h.fits.5, h.fits.6, by simp⟩
  have hfits : (handleRoles sfc.roles len val.toNat
      (saveKeyVal sfc.keyValSavingIndexes val.toNat d₁)).1.Fits bytes (false = true) :=
    handleRoles_fits (by simp) hsaved
  have hadv : d₁.Advances 0 (saveKeyVal sfc.keyValSavingIndexes val.toNat d₁) := ⟨rfl, rfl, id⟩
  have hframe : d₁.Frame c (saveKeyVal sfc.keyValSavingIndexes val.toNat d₁) :=
    ⟨rfl, rfl, fun _ => ⟨rfl, rfl⟩⟩
  exact Worked.of_read h hn (hfits.weaken False.elim) (hadv.trans (handleRoles_advances ..))
    (hframe.trans (handleRoles_frame hroles)) hmark

/-- A field is read once the head is aligned. -/
theorem readScalar_works (hm : m.Over bytes) (hready : m.Ready) (hd : d.curVarLenIntLen = 0)
    (hpad : d.alignLen sfc.align ≤ d.remainingPktContentLen) (hmoved : d.Moved d₁)
    (h : d.Takes bytes (d.alignLen sfc.align) d₁)
    (hsfc : (Fc.scalar sfc).all (Fc.rolesOk c) = true) :
    Works bytes c ⟨d, .field (.scalar sfc) :: rest, phase⟩ (readScalar m sfc rest phase d₁) := by
  have hsave {d₂ : Dec} {n : ℕ} {i : Item} (h : d.Takes bytes n d₂) (hn : 0 < n) (indexes : List ℕ)
      (val : ℤ) (hmark : i.isMark = false) :
      Worked bytes c d (.field (.scalar sfc) :: rest) i ⟨saveKeyVal indexes val d₂, rest, phase⟩ :=
    .of_read h hn ⟨h.fits.1, h.fits.2, h.fits.3, h.fits.4, h.fits.5, h.fits.6, by simp⟩
      ⟨rfl, rfl, id⟩ ⟨rfl, rfl, fun _ => ⟨rfl, rfl⟩⟩ hmark
  cases sfc with
  | fixedLen kind fc roles indexes =>
    have hp : fc.readParams.lenBits ≤ fc.len + 7 := by
      simp only [FixedLenBitArrayFc.readParams]
      split <;> omega
    have hcan : CanRead bytes fc.readParams fc 0 d₁ ↔
        CanRead bytes fc.readParams fc (d.alignLen fc.align) d :=
      CanRead.of_moved hmoved h.advances.head hpad
    refine tryDec_decides (readFixedLenInt_decides hm hready _ _ fc hp h.fits)
      (fun val d₂ hread h₂ => ?_) fun e hno he => .inl ⟨he, fun hun => hno (hcan.mpr hun.2)⟩
    have hpos := fc.len_pos
    have h := h.trans h₂
    have hn : 0 < d.alignLen fc.align + fc.len := by omega
    split
    · rename_i hkind
      refine ⟨afterUInt_works h hn hsfc rfl, fun hun => ?_⟩
      have hmem := hun.1.1.1
      simp [hkind] at hmem
    · obtain ⟨hmixes, heq⟩ | ⟨hmixes, indexes', heq⟩ := afterFixedLen_cases kind fc roles
        indexes val (.fixedLenField kind (.fixedLen kind fc roles indexes) val) rest phase d₂
      · rw [heq]
        exact .inr ⟨rfl, hmixes, hcan.mp hread⟩
      · rw [heq]
        exact ⟨hsave h hn _ _ rfl, fun hun => hmixes hun.1⟩
  | varLenInt isSigned roles indexes =>
    have hd₁ := h.advances.varLen hd
    refine tryDec_works (p := fun d => varLenLoop m isSigned (varLenFuel d) d)
      (R := fun _ d₂ => ∃ k, 0 < k ∧ d₁.Takes bytes (8 * k) d₂) ?_ (fun r d₂ h₂ => ?_)
      fun e he => .inl ⟨he, id⟩
    · have hfuel : varLenFuel d₁ = 10 := by rw [varLenFuel, hd₁]
      exact .of_apply_eq (by rw [hfuel]) (varLenLoop_wp hm hready isSigned (by decide) (by omega) h.fits)
    · obtain ⟨k, hk, h₂⟩ := h₂
      have h := h.trans h₂
      have hn : 0 < d.alignLen 8 + 8 * k := by omega
      cases isSigned with
      | true => exact ⟨hsave h hn _ _ rfl, id⟩
      | false => exact ⟨afterUInt_works h hn hsfc rfl, id⟩

theorem doTask_works (hm : m.Over bytes) (hready : m.Ready) (hd : d.Fits bytes False)
    (hvarLen : d.curVarLenIntLen = 0) (h : TasksOk (Fc.rolesOk c) (task :: rest))
    (hopts : TasksOk Fc.hasOpts (task :: rest)) (phase : Phase) :
    Works bytes c ⟨d, task :: rest, phase⟩ (doTask m rest phase d task) := by
  have hrefl : d.Takes bytes 0 d := ⟨hd, ⟨rfl, rfl, id⟩, .refl d⟩
  have htask : task.Ok (Fc.rolesOk c) := h task List.mem_cons_self
  cases task with
  | skip len => exact htask.elim
  | field fc =>
    cases fc with
    | scalar sfc =>
      refine tryAlign_works hm hready hd
        (fun d₁ hpad hmoved h₁ => readScalar_works hm hready hvarLen hpad hmoved h₁ htask)
        fun e he hno => .inl ⟨he, fun hun => hno ?_⟩
      cases sfc with
      | varLenInt => exact hun.elim
      | fixedLen kind fc roles indexes =>
        obtain ⟨hcontent, hdata, -⟩ := hun.2
        exact ⟨(Nat.le_add_right _ _).trans hcontent, (Nat.le_add_right _ _).trans hdata⟩
    | _ =>
      refine tryAlign_works hm hready hd (fun d₁ _ _ h₁ => ?_) fun e he _ => .inl ⟨he, id⟩
      have hkeyVals : d₁.savedKeyVals = d.savedKeyVals := by rw [h₁.reads]
      split
      · rename_i hbegin
        have hweight := begin_weight hbegin
        rw [hkeyVals] at hweight
        refine ⟨.of_takes h₁ rfl fun _ => ?_, id⟩
        simp only [tasksWeight_append, tasksWeight_cons, Task.weight]
        omega
      · rename_i hbegin
        exact .inl ⟨begin_isError (by simp) (Fc.of_all (hopts _ List.mem_cons_self)) hbegin, id⟩
  | endField kind fc =>
    exact ⟨.of_takes hrefl rfl fun _ => by simp [Task.weight], id⟩
  | rawData remaining =>
    refine tryDec_works (readRawData_wp hm hready remaining hd) (fun bs d₁ hpost => ?_)
      fun e he => .inl ⟨he, id⟩
    obtain ⟨h₁, hbs⟩ := hpost
    refine ⟨.of_takes h₁ rfl fun h0 => ?_, id⟩
    obtain rfl : bs = [] := List.length_eq_zero_iff.mp (by omega)
    obtain rfl : remaining = 0 := by simpa using hbs
    simp [rawDataTasks, Task.weight]
  | substr cu part =>
    refine tryDec_works (readSubstr_wp hm hready cu part hd) (fun r d₁ hpost => ?_)
      fun e he => .inl ⟨he, id⟩
    obtain ⟨h₁, hr⟩ := hpost
    refine ⟨.of_takes h₁ rfl fun h0 => ?_, id⟩
    have hfound : r.2.1 = true :=
      Bool.of_not_eq_false fun hf => hr hf (List.length_eq_zero_iff.mp (by omega))
    simp [hfound, Task.weight]
  | uuidSection uuid =>
    refine tryDec_works (readRawData_wp hm hready _ hd) (fun bs d₁ hpost => ?_)
      fun e he => .inl ⟨he, id⟩
    obtain ⟨h₁, hbs⟩ := hpost
    refine ⟨.of_takes h₁ rfl fun h0 => ?_, id⟩
    have hlt : uuid.length < 16 := htask
    exact absurd (List.length_eq_zero_iff.mp (by omega)) (hbs (by omega))
  | uuidByte fc uuid =>
    refine tryAlign_works hm hready hd (fun d₁ _ _ h₁ => ?_) fun e he _ => .inl ⟨he, id⟩
    have hpos := fc.len_pos
    refine tryDec_works (readFixedLenInt_decides hm hready _ _ fc (by simp only; omega) h₁.fits).wp
      (fun val d₂ h₂ => ?_) fun e he => .inl ⟨he, id⟩
    exact ⟨.of_takes (h₁.trans h₂) rfl fun h0 => by omega, id⟩
  | item i =>
    refine ⟨.of_takes hrefl ?_ fun _ => by simp [Task.weight], id⟩
    have hextra : i.isExtra = true := htask
    cases i with
    | pktMagicNumber | metadataStreamUuid | defClkVal => rfl
    | _ => cases hextra

end

/-! ## Phases -/

def Phase.recordHead : Phase → Option ℕ
  | .tryBeginScope scope _ head | .endScope scope head =>
    if scope.isEventRecord then some head else none
  | .setEventRecordInfo head | .endEventRecord head => some head
  | _ => none

structure InPkt (bytes : List UInt8) (d : Dec) : Prop where
  pktOffset : d.curPktOffsetInItemSeq < 8 * bytes.length
  lens : d.expectedTotalLen ≠ infDataLen ∨ d.expectedContentLen ≠ infDataLen →
    0 < d.headOffsetInCurPkt

structure LensSet (d : Dec) : Prop where
  total_mod : d.expectedTotalLen % 8 = 0
  content_of_total : d.expectedTotalLen = infDataLen → d.expectedContentLen = infDataLen

structure InRecord (head : ℕ) (d : Dec) : Prop where
  lens : LensSet d
  head_le : head ≤ d.headOffsetInCurPkt
  streamCls : d.dataStreamInfo.cls.isSome = true

structure InScope (bytes : List UInt8) (scope : Scope) (head : ℕ) (d : Dec) : Prop where
  pkt : InPkt bytes d
  record : scope.isEventRecord = true → InRecord head d
  recordCls : scope = .specEventRecordCtx → d.eventRecordInfo.cls.isSome = true

def Phase.Goes (bytes : List UInt8) (d : Dec) : Phase → Prop
  | .init | .tryBeginPkt => d.bufOffsetInCurPkt = 0 ∧ d.headOffsetInCurPkt = 0
  | .beginPktContent | .setDataStreamInfo | .setPktInfo => InPkt bytes d
  | .tryBeginScope scope fc head => InScope bytes scope head d ∧
      (scope.isEventRecord = true → fc.all StructFc.hasNoPktLenRole = true)
  | .endScope scope head => InScope bytes scope head d
  | .tryBeginEventRecord => InPkt bytes d ∧ LensSet d
  | .setEventRecordInfo head | .endEventRecord head => InPkt bytes d ∧ InRecord head d
  | .endPktContent => 0 < d.headOffsetInCurPkt ∧ LensSet d ∧ Phase.endPktContent.Ok d
  | .endPkt => 0 < d.headOffsetInCurPkt ∧ Phase.endPkt.Ok d
  | .skipEndPadding _ | .done => False

structure Going (bytes : List UInt8) (a : Agenda) : Prop where
  fits : a.dec.Fits bytes False
  varLen : a.dec.curVarLenIntLen = 0
  tasks : TasksOk (Fc.rolesOk (a.phase.part = .content)) a.tasks
  opts : TasksOk Fc.hasOpts a.tasks
  scope : a.tasks ≠ [] → ∃ scope head, a.phase = .endScope scope head
  phase : a.phase.Goes bytes a.dec

/-- What each phase leads to -/
inductive PhaseStep (bytes : List UInt8) (d : Dec) : Phase → Answer → Prop
  | init : PhaseStep bytes d .init (.continue ⟨d, [], .tryBeginPkt⟩)
  | beginPkt {d' : Dec} (hrequests : (resetForNewPkt d).Requests d') (hfits : d'.Fits bytes False)
      (hdata : d'.curPktOffsetInItemSeq < 8 * bytes.length) :
      PhaseStep bytes d .tryBeginPkt (.item .pktBegin ⟨d', [], .beginPktContent⟩)
  | ended : PhaseStep bytes d .tryBeginPkt .ended
  | beginPktContent (fc : Option StructFc) : PhaseStep bytes d .beginPktContent
      (.item .pktContentBegin ⟨d, [], .tryBeginScope .pktHeader fc 0⟩)
  | endPktContent {n : ℕ} {d' : Dec} (h : d.Takes bytes n d') (hok : Phase.endPkt.Ok d') :
      PhaseStep bytes d .endPktContent (.item .pktContentEnd ⟨d', [], .endPkt⟩)
  | endPkt : PhaseStep bytes d .endPkt (.item .pktEnd ⟨endReadPkt d, [], .tryBeginPkt⟩)
  | beginScope {scope : Scope} {fc : StructFc} {head : ℕ} :
      PhaseStep bytes d (.tryBeginScope scope (some fc) head)
        (.item (.scopeBegin scope) ⟨d, [.field fc.toFc], .endScope scope head⟩)
  | skipScope {scope : Scope} {head : ℕ} {phase : Phase}
      (hafter : Phase.afterScope d head scope = some phase) :
      PhaseStep bytes d (.tryBeginScope scope none head) (.continue ⟨d, [], phase⟩)
  | endScope {scope : Scope} {head : ℕ} {phase : Phase}
      (hafter : Phase.afterScope d head scope = some phase) :
      PhaseStep bytes d (.endScope scope head) (.item (.scopeEnd scope) ⟨d, [], phase⟩)
  | setDataStreamInfo {d' : Dec} {phase : Phase}
      (hd' : d' = { d with dataStreamInfo := d'.dataStreamInfo, curClsId := d'.curClsId })
      (hphase : phase = .setPktInfo ∨ ∃ fc, phase = .tryBeginScope .pktCtx fc 0) :
      PhaseStep bytes d .setDataStreamInfo (.item (.dataStreamInfo d'.dataStreamInfo) ⟨d', [], phase⟩)
  | setPktInfo {d' : Dec} (hd' : d' = { d.withPktLens with pktInfo := d'.pktInfo })
      (hlens : LensSet d') :
      PhaseStep bytes d .setPktInfo (.item (.pktInfo d'.pktInfo) ⟨d', [], .tryBeginEventRecord⟩)
  | beginEventRecord {d' : Dec} {cls : DataStreamCls} (hrequests : d.Requests d')
      (hfits : d'.Fits bytes False) (hcls : d.dataStreamInfo.cls = some cls) :
      PhaseStep bytes d .tryBeginEventRecord (.item .eventRecordBegin ⟨d', [],
        .tryBeginScope .eventRecordHeader cls.eventRecordHeaderFc d'.headOffsetInCurPkt⟩)
  | undefined (hcls : d.dataStreamInfo.cls = none) (hmore : d.HasMore bytes) :
      PhaseStep bytes d .tryBeginEventRecord (.failed .fault)
  | noEventRecord {d' : Dec} (hrequests : d.Requests d') (hfits : d'.Fits bytes False)
      (hmore : ¬d.HasMore bytes) (hpos : 0 < d.headOffsetInCurPkt) (hok : Phase.endPktContent.Ok d) :
      PhaseStep bytes d .tryBeginEventRecord (.continue ⟨d', [], .endPktContent⟩)
  | setEventRecordInfo {d' : Dec} {cls : DataStreamCls} {head : ℕ} (hd' : d.SetsEventRecord d') :
      PhaseStep bytes d (.setEventRecordInfo head) (.item (.eventRecordInfo d'.eventRecordInfo)
        ⟨d', [], .tryBeginScope .commonEventRecordCtx cls.commonEventRecordCtxFc head⟩)
  | endEventRecord {head : ℕ} (hne : d.headOffsetInCurPkt ≠ head) :
      PhaseStep bytes d (.endEventRecord head) (.item .eventRecordEnd ⟨d, [], .tryBeginEventRecord⟩)
  | failed {phase : Phase} {e : Exc} (he : e.IsError) (hdefined : phase ≠ .tryBeginEventRecord) :
      PhaseStep bytes d phase (.failed e)

section
variable {bytes : List UInt8} {tc : TraceCls} {m : Medium} {d d' : Dec} {a a' : Agenda}

theorem InScope.afterScope_isSome (h : InScope bytes scope head d) :
    (Phase.afterScope d head scope).isSome = true := by
  cases scope with
  | commonEventRecordCtx =>
    simp only [Phase.afterScope]
    split <;> rfl
  | specEventRecordCtx =>
    rw [Phase.afterScope, Option.isSome_map]
    exact h.recordCls rfl
  | _ => rfl

theorem setPktInfo_wp (d : Dec) : Wp Exc.IsError setPktInfo d fun _ d' =>
    d' = { d.withPktLens with pktInfo := d'.pktInfo } ∧ LensSet d' := by
  refine Wp.imp (Q := fun _ _ => True) ?_ fun _ d' h _ => ?_
  · refine Wp.bind (Q := fun _ _ => True) trivial fun _ d₁ _ => ?_
    rw [Wp, get_bind_apply]
    show Wp Exc.IsError (if d₁.expectedTotalLen % 8 ≠ 0 then _ else _) d₁ _
    split
    · trivial
    · split
      · trivial
      · split <;> trivial
  · obtain ⟨hd', hmod, -⟩ := setPktInfo_ok h
    refine ⟨hd', ?_⟩
    rw [hd']
    refine ⟨hmod, ?_⟩
    simp only [Dec.withPktLens]
    split <;> split <;> intro h <;> first | assumption | contradiction

theorem setDataStreamInfo_wp (tc : TraceCls) (d : Dec) :
    Wp Exc.IsError (setDataStreamInfo tc) d fun _ d' =>
      d' = { d with dataStreamInfo := d'.dataStreamInfo, curClsId := d'.curClsId } := by
  refine Wp.imp (Q := fun _ _ => True) ?_ fun _ d' h _ => (setDataStreamInfo_moves tc).ok h
  rw [Wp, setDataStreamInfo, get_bind_apply]
  cases d.curClsId with
  | some id =>
    simp only
    cases tc.find id <;> trivial
  | none =>
    simp only
    rcases tc.dataStreamClss with _ | ⟨cls, _ | ⟨cls', clss⟩⟩ <;> trivial

theorem setEventRecordInfo_wp {cls : DataStreamCls} (hcls : d.dataStreamInfo.cls = some cls) :
    Wp Exc.IsError setEventRecordInfo d fun _ d' => d.SetsEventRecord d' := by
  refine Wp.imp (Q := fun _ _ => True) ?_ fun cls' d' h _ => (setEventRecordInfo_ok h).2
  rw [Wp, setEventRecordInfo, get_bind_apply, hcls]
  refine Wp.bind (Q := fun _ _ => True) ?_ fun _ d₁ _ => ?_
  · rw [Wp, setEventRecordCls, get_bind_apply]
    cases d.curClsId with
    | some id =>
      simp only
      cases cls.find id <;> trivial
    | none =>
      simp only
      rcases cls.eventRecordClss with _ | ⟨erCls, _ | ⟨erCls', erClss⟩⟩ <;> trivial
  · split <;> trivial

section
variable (hm : m.Over bytes) (hready : m.Ready)
include hm hready

theorem tryBeginPkt_wp (hd : d.Fits bytes False) :
    Wp Exc.IsError (if d.remainingBufLen = 0 then tryHaveData m 1 else pure true) d fun b d' =>
      d.Requests d' ∧ d'.Fits bytes False ∧
        (b = true → d'.curPktOffsetInItemSeq < 8 * bytes.length) := by
  by_cases hbuf : d.remainingBufLen = 0
  · simp only [hbuf, if_true]
    obtain ⟨b, d', h, hrequests, hfits, -, hb⟩ := tryHaveData_spec hm hready Nat.one_pos hd
    refine .of_eq h ⟨hrequests, hfits, fun htrue => ?_⟩
    have hdata := hb.mp htrue
    have hpkt : d'.curPktOffsetInItemSeq = d.curPktOffsetInItemSeq := by rw [hrequests]
    simp only [Dec.headOffsetInItemSeq] at hdata
    omega
  · simp only [hbuf, if_false]
    have hrem := hd.remainingBufLen_eq
    have hle := hd.buf_le
    exact ⟨.refl d, hd, fun _ => by omega⟩

theorem hasEventRecord_spec (hbytes : 8 * bytes.length ≤ infDataLen) (hd : d.Fits bytes False)
    (hin : InPkt bytes d) (hlens : LensSet d) :
    ∃ b d', hasEventRecord m d = .ok b d' ∧ d.Requests d' ∧ d'.Fits bytes False ∧
      (b = true ↔ d.HasMore bytes) ∧
      (b = false → 0 < d.headOffsetInCurPkt ∧ Phase.endPktContent.Ok d) := by
  have hrem := hd.remainingBufLen_eq
  have hle := hd.buf_le
  have hhead := hd.head_le
  have hmod := hd.bufOffset_mod
  have hpkt := hin.pktOffset
  rw [hasEventRecord, get_bind_apply]
  by_cases hinf : d.expectedContentLen = infDataLen
  · simp only [hinf, if_true, Dec.HasMore]
    by_cases hbuf : d.remainingBufLen = 0
    · simp only [hbuf, if_true]
      obtain ⟨b, d', h, hrequests, hfits, -, hb⟩ := tryHaveData_spec hm hready Nat.one_pos hd
      refine ⟨b, d', h, hrequests, hfits, hb, fun hfalse => ?_⟩
      -- there's no data left at the head, which is at the end of the buffer
      have hno : ¬d.headOffsetInItemSeq + 1 ≤ 8 * bytes.length := fun h => by simp [hb.mpr h] at hfalse
      simp only [Dec.headOffsetInItemSeq] at hno
      exact ⟨by omega, fun _ => by omega⟩
    · simp only [hbuf, if_false]
      refine ⟨true, d, rfl, .refl d, hd, ?_, by simp⟩
      simp only [Dec.headOffsetInItemSeq, true_iff]
      omega
  · simp only [hinf, if_false, Dec.HasMore]
    refine ⟨_, d, rfl, .refl d, hd, ?_, fun _ =>
      ⟨hin.lens (.inr hinf), fun h => absurd (hlens.content_of_total h) hinf⟩⟩
    refine decide_eq_true_iff.trans ?_
    simp only [infDataLen] at hbytes
    simp only [Dec.remainingPktContentLen, safeSub]
    split <;> omega

end

section
variable (hbytes : 8 * bytes.length ≤ infDataLen) (hm : m.Over bytes) (hready : m.Ready)
include hm hready

theorem tryBeginPkt_step (h : Going bytes ⟨d, [], .tryBeginPkt⟩) :
    PhaseStep bytes d .tryBeginPkt (doPhase tc m d .tryBeginPkt) := by
  refine tryDec_works (tryBeginPkt_wp hm hready (resetForNewPkt_fits h.fits h.phase.1))
    (fun b d' hpost => ?_) fun _ he => .failed he (by simp)
  obtain ⟨hrequests, hfits, hdata⟩ := hpost
  cases b with
  | false => exact .ended
  | true => exact .beginPkt hrequests hfits (hdata rfl)

include hbytes in
theorem endPktContent_step (h : Going bytes ⟨d, [], .endPktContent⟩) :
    PhaseStep bytes d .endPktContent (doPhase tc m d .endPktContent) := by
  have hfits : d.Fits bytes False := h.fits
  obtain ⟨hpos, hlens, hok⟩ : 0 < d.headOffsetInCurPkt ∧ LensSet d ∧ _ := h.phase
  simp only [doPhase]
  by_cases hinf : d.expectedTotalLen = infDataLen
  · simp only [hinf, if_true]
    exact .endPktContent (n := 0) ⟨hfits, ⟨rfl, rfl, id⟩, .refl d⟩ ⟨hok hinf, fun h => absurd hinf h⟩
  simp only [hinf, if_false]
  have hskip := skipLoop_decides hm hready false le_rfl (by simp) hfits
    (r := safeSub d.expectedTotalLen d.headOffsetInCurPkt)
  split
  · rename_i d' r hs
    have htakes : d.Takes bytes _ d' := (hskip.ok hs).2
    have hle := htakes.fits.offset_le
    have hhead := htakes.advances.head
    have htotal : d'.expectedTotalLen = d.expectedTotalLen := by rw [htakes.reads]
    have hpkt := htakes.advances.pktOffset
    have hmod := hlens.total_mod
    -- the head is at the end of the packet: the subtraction didn't wrap
    have hend : d'.headOffsetInCurPkt = d.expectedTotalLen := by
      simp only [infDataLen] at hbytes
      simp only [Dec.headOffsetInItemSeq] at hle
      simp only [safeSub] at hhead
      split at hhead <;> omega
    exact .endPktContent htakes ⟨by omega, fun _ => hend.trans htotal.symm⟩
  · rename_i hs
    exact (hskip.error hs).2.elim
  · rename_i hs
    exact .failed (hskip.error hs).2 (by simp)

include hbytes in
theorem tryBeginEventRecord_step (h : Going bytes ⟨d, [], .tryBeginEventRecord⟩) :
    PhaseStep bytes d .tryBeginEventRecord (doPhase tc m d .tryBeginEventRecord) := by
  obtain ⟨hin, hlens⟩ : InPkt bytes d ∧ LensSet d := h.phase
  obtain ⟨b, d', hhas, hrequests, hfits, hmore, hend⟩ :=
    hasEventRecord_spec hm hready hbytes h.fits hin hlens
  have hcls : d'.dataStreamInfo.cls = d.dataStreamInfo.cls := by rw [hrequests]
  simp only [doPhase, tryDec, hhas]
  cases b with
  | false => exact .noEventRecord hrequests hfits (hmore.not.mp (by simp)) (hend rfl).1 (hend rfl).2
  | true =>
    simp only [if_true]
    cases h : d'.dataStreamInfo.cls with
    | none => exact .undefined (hcls ▸ h) (hmore.mp rfl)
    | some cls => exact .beginEventRecord hrequests hfits (hcls ▸ h)

include hbytes in
theorem doPhase_step (h : Going bytes ⟨d, [], phase⟩) :
    PhaseStep bytes d phase (doPhase tc m d phase) := by
  have hphase : phase.Goes bytes d := h.phase
  cases phase with
  | init => exact .init
  | tryBeginPkt => exact tryBeginPkt_step hm hready h
  | beginPktContent => exact .beginPktContent _
  | endPktContent => exact endPktContent_step hbytes hm hready h
  | skipEndPadding len => exact hphase.elim
  | endPkt => exact .endPkt
  | done => exact hphase.elim
  | tryBeginScope scope fc head =>
    cases fc with
    | some fc => exact .beginScope
    | none =>
      obtain ⟨phase, hafter⟩ := Option.isSome_iff_exists.mp hphase.1.afterScope_isSome
      simp only [doPhase, hafter]
      exact .skipScope hafter
  | endScope scope head =>
    obtain ⟨phase, hafter⟩ := Option.isSome_iff_exists.mp (InScope.afterScope_isSome hphase)
    simp only [doPhase, hafter]
    exact .endScope hafter
  | setDataStreamInfo =>
    refine tryDec_works (setDataStreamInfo_wp tc d) (fun _ d' hd' => .setDataStreamInfo hd' ?_)
      fun _ he => .failed he (by simp)
    split
    · exact .inr ⟨_, rfl⟩
    · exact .inl rfl
  | setPktInfo =>
    exact tryDec_works (setPktInfo_wp d) (fun _ d' hpost => .setPktInfo hpost.1 hpost.2)
      fun _ he => .failed he (by simp)
  | tryBeginEventRecord => exact tryBeginEventRecord_step hbytes hm hready h
  | setEventRecordInfo head =>
    obtain ⟨cls, hcls⟩ := Option.isSome_iff_exists.mp hphase.2.streamCls
    exact tryDec_works (setEventRecordInfo_wp hcls) (fun _ _ hd' => .setEventRecordInfo hd')
      fun _ he => .failed he (by simp)
  | endEventRecord head =>
    simp only [doPhase]
    split
    · exact .failed trivial (by simp)
    · rename_i hne
      exact .endEventRecord hne

end

theorem PhaseStep.fault_iff {r : Answer} (h : PhaseStep bytes d phase r) :
    (r = .failed .fault ↔ Agenda.Undefined bytes ⟨d, [], phase⟩) ∧ r ≠ .failed .tryAgain := by
  cases h with
  | beginEventRecord _ _ hcls =>
    refine ⟨⟨by rintro ⟨⟩, fun h => ?_⟩, by simp⟩
    cases hcls.symm.trans h.2.1
  | undefined hcls hmore => exact ⟨⟨fun _ => ⟨rfl, hcls, hmore⟩, fun _ => rfl⟩, by simp⟩
  | noEventRecord _ _ hmore => exact ⟨⟨by rintro ⟨⟩, fun h => absurd h.2.2 hmore⟩, by simp⟩
  | failed he hdefined =>
    refine ⟨⟨?_, fun h => absurd h.1 hdefined⟩, ?_⟩
    · rintro ⟨⟩
      exact he.elim
    · rintro ⟨⟩
      exact he
  | _ => exact ⟨⟨by rintro ⟨⟩, by rintro ⟨⟨⟩, -⟩⟩, by simp⟩

/-! ## Progress -/

def Scope.rank : Scope → ℕ
  | .pktHeader => 18
  | .pktCtx => 15
  | .eventRecordHeader => 11
  | .commonEventRecordCtx => 8
  | .specEventRecordCtx => 6
  | .eventRecordPayload => 4

def Phase.rank : Phase → ℕ
  | .init => 22
  | .tryBeginPkt => 21
  | .beginPktContent => 20
  | .tryBeginScope scope _ _ => scope.rank + 1
  | .endScope scope _ => scope.rank
  | .setDataStreamInfo => 17
  | .setPktInfo => 14
  | .tryBeginEventRecord => 13
  | .setEventRecordInfo _ => 10
  | .endEventRecord _ => 3
  | .endPktContent => 2
  | .skipEndPadding _ => 1
  | .endPkt | .done => 0

theorem Phase.rank_lt (phase : Phase) : phase.rank < 23 := by
  cases phase with
  | tryBeginScope scope | endScope scope =>
    cases scope <;> simp [Phase.rank, Scope.rank]
  | _ => simp [Phase.rank]

def Agenda.mark (a : Agenda) : ℕ :=
  a.dec.curPktOffsetInItemSeq + match a.phase.recordHead with
    | some head => head
    | none => if a.phase.part = .outside then 0 else a.dec.headOffsetInCurPkt

/-- The data after the beginnings of the event record and of the packet, along with the phases to
come, then the data after the head, and then the tasks which don't read any -/
def Agenda.measure (bytes : List UInt8) (a : Agenda) : ℕ × ℕ × ℕ :=
  (23 * ((8 * bytes.length - a.mark) + (8 * bytes.length - a.dec.curPktOffsetInItemSeq)) +
      a.phase.rank,
    8 * bytes.length - a.dec.headOffsetInItemSeq, tasksWeight a.dec.savedKeyVals a.tasks)

def Agenda.Lt (bytes : List UInt8) (a' a : Agenda) : Prop :=
  Prod.Lex (· < ·) (Prod.Lex (· < ·) (· < ·)) (a'.measure bytes) (a.measure bytes)

theorem Agenda.lt_wf (bytes : List UInt8) : WellFounded (Agenda.Lt bytes) :=
  InvImage.wf _ (WellFounded.prod_lex Nat.lt_wfRel.wf
    (WellFounded.prod_lex Nat.lt_wfRel.wf Nat.lt_wfRel.wf))

theorem Agenda.lt_of_rank (hmark : a.mark ≤ a'.mark)
    (hpkt : a.dec.curPktOffsetInItemSeq ≤ a'.dec.curPktOffsetInItemSeq)
    (hrank : a'.phase.rank < a.phase.rank) : a'.Lt bytes a := by
  refine Prod.Lex.left _ _ ?_
  omega

theorem Agenda.lt_of_mark (hmark : a.mark < a'.mark) (hle : a'.mark ≤ 8 * bytes.length)
    (hpkt : a.dec.curPktOffsetInItemSeq ≤ a'.dec.curPktOffsetInItemSeq) : a'.Lt bytes a := by
  refine Prod.Lex.left _ _ ?_
  have hrank := a'.phase.rank_lt
  omega

theorem Agenda.lt_of_pktOffset (hmark : a.mark ≤ a'.mark)
    (hpkt : a.dec.curPktOffsetInItemSeq < a'.dec.curPktOffsetInItemSeq)
    (hle : a'.dec.curPktOffsetInItemSeq ≤ 8 * bytes.length) : a'.Lt bytes a := by
  refine Prod.Lex.left _ _ ?_
  have hrank := a'.phase.rank_lt
  omega

theorem Agenda.mark_scope (d : Dec) (tasks : List Task) (scope : Scope) (head : ℕ) :
    Agenda.mark ⟨d, tasks, .endScope scope head⟩ =
      d.curPktOffsetInItemSeq + if scope.isEventRecord then head else 0 := by
  cases h : scope.isEventRecord <;> simp [Agenda.mark, Phase.recordHead, Phase.part, h]

theorem Agenda.lt_of_task {tasks tasks' : List Task} (hfits : d'.Fits bytes False)
    (hpkt : d'.curPktOffsetInItemSeq = d.curPktOffsetInItemSeq)
    (h : d.headOffsetInCurPkt < d'.headOffsetInCurPkt ∨
      d'.headOffsetInCurPkt = d.headOffsetInCurPkt ∧ d'.savedKeyVals = d.savedKeyVals ∧
        tasksWeight d.savedKeyVals tasks' < tasksWeight d.savedKeyVals tasks) :
    Agenda.Lt bytes ⟨d', tasks', .endScope scope head⟩ ⟨d, tasks, .endScope scope head⟩ := by
  have hfirst : (Agenda.measure bytes ⟨d', tasks', .endScope scope head⟩).1 =
      (Agenda.measure bytes ⟨d, tasks, .endScope scope head⟩).1 := by
    simp only [Agenda.measure, Agenda.mark_scope, hpkt]
  have hle := hfits.offset_le
  rw [Agenda.Lt, Prod.lex_def]
  refine .inr ⟨hfirst, ?_⟩
  rw [Prod.lex_def]
  simp only [Agenda.measure, Dec.headOffsetInItemSeq, hpkt] at hle ⊢
  obtain hlt | ⟨hhead, hkeyVals, hweight⟩ := h
  · left
    omega
  · rw [hhead, hkeyVals]
    exact .inr ⟨rfl, hweight⟩

theorem Going.doTask (hm : m.Over bytes) (hready : m.Ready) {rest : List Task}
    (h : Going bytes ⟨d, task :: rest, phase⟩) :
    (doTask m rest phase d task).Gives fun _ a => Going bytes a ∧
      a.Lt bytes ⟨d, task :: rest, phase⟩ := by
  obtain ⟨scope, head, rfl⟩ : ∃ scope head, phase = .endScope scope head := h.scope (by simp)
  have hworks := doTask_works hm hready h.fits h.varLen h.tasks h.opts (.endScope scope head)
  have hopts : Leaves Fc.hasOpts (.endScope scope head)
      (ItemSeq.doTask m rest (.endScope scope head) d task) := doTask_tasks (.of_ok h.opts)
  have hleaves : Leaves (Fc.rolesOk _) (.endScope scope head)
      (ItemSeq.doTask m rest (.endScope scope head) d task) := doTask_tasks (.of_ok h.tasks)
  cases hr : ItemSeq.doTask m rest (.endScope scope head) d task with
  | item i a =>
    rw [hr] at hworks hleaves hopts
    obtain ⟨d', tasks, phase⟩ := a
    obtain ⟨rfl, htasks⟩ := hleaves
    have hworks : Worked bytes _ d (task :: rest) i ⟨d', tasks, .endScope scope head⟩ := hworks.1
    obtain ⟨hin, hrecord, hrecordCls⟩ : InScope bytes scope head d := h.phase
    have hhead : d.headOffsetInCurPkt ≤ d'.headOffsetInCurPkt :=
      hworks.progress.elim Nat.le_of_lt fun h => h.1.ge
    have hin' : InPkt bytes d' := by
      refine ⟨hworks.pktOffset ▸ hin.pktOffset, fun hlens => ?_⟩
      obtain hlt | ⟨-, hframe, -⟩ := hworks.progress
      · exact Nat.zero_lt_of_lt hlt
      · rw [(hframe.lens rfl).1, (hframe.lens rfl).2] at hlens
        exact (hin.lens hlens).trans_le hhead
    have hrecord' (hscope : scope.isEventRecord = true) : InRecord head d' := by
      obtain ⟨hlens, hle, hcls⟩ := hrecord hscope
      have hframe := hworks.frame.lens (decide_eq_true (if_pos hscope))
      exact ⟨⟨hframe.1 ▸ hlens.total_mod, hframe.1 ▸ hframe.2 ▸ hlens.content_of_total⟩,
        hle.trans hhead, hworks.frame.streamCls ▸ hcls⟩
    have hscope' : InScope bytes scope head d' :=
      ⟨hin', hrecord', fun h => hworks.frame.recordCls ▸ hrecordCls h⟩
    exact ⟨⟨hworks.fits, hworks.varLen h.varLen, htasks, hopts.2, fun _ => ⟨scope, head, rfl⟩, hscope'⟩,
      Agenda.lt_of_task hworks.fits hworks.pktOffset (hworks.progress.imp_right fun h => ⟨h.1, h.2.2⟩)⟩
  | _ =>
    rw [hr] at hworks
    first | exact hworks.elim | trivial

theorem afterScope_goes (h : Phase.afterScope d head scope = some phase)
    (hscope : InScope bytes scope head d) :
    phase.Goes bytes d ∧ phase.rank < scope.rank ∧
      d.curPktOffsetInItemSeq + (if scope.isEventRecord then head else 0) ≤
        Agenda.mark ⟨d, [], phase⟩ := by
  obtain ⟨hin, hrecord, -⟩ := hscope
  cases scope with
  | pktHeader | pktCtx =>
    cases h
    exact ⟨hin, by simp [Phase.rank, Scope.rank], le_rfl⟩
  | eventRecordHeader | eventRecordPayload =>
    cases h
    exact ⟨⟨hin, hrecord rfl⟩, by simp [Phase.rank, Scope.rank], le_rfl⟩
  | commonEventRecordCtx =>
    simp only [Phase.afterScope] at h
    split at h
    · rename_i cls hcls
      cases h
      exact ⟨⟨⟨hin, fun _ => hrecord rfl, fun _ => by rw [hcls]; rfl⟩, fun _ => cls.specCtx_roles⟩,
        by simp [Phase.rank, Scope.rank], le_rfl⟩
    · cases h
      exact ⟨⟨hin, hrecord rfl⟩, by simp [Phase.rank, Scope.rank], le_rfl⟩
  | specEventRecordCtx =>
    obtain ⟨cls, -, rfl⟩ := Option.map_eq_some_iff.mp h
    exact ⟨⟨⟨hin, fun _ => hrecord rfl, by rintro ⟨⟩⟩, fun _ => cls.payload_roles⟩,
      by simp [Phase.rank, Scope.rank], le_rfl⟩

theorem Going.of_phase (hfits : d.Fits bytes False) (hvarLen : d.curVarLenIntLen = 0)
    (hphase : phase.Goes bytes d) : Going bytes ⟨d, [], phase⟩ :=
  ⟨hfits, hvarLen, TasksOk.nil, TasksOk.nil, fun h => absurd rfl h, hphase⟩

theorem Going.of_field {fc : StructFc}
    (h : Going bytes ⟨d, [], .tryBeginScope scope (some fc) head⟩) :
    Going bytes ⟨d, [.field fc.toFc], .endScope scope head⟩ := by
  obtain ⟨hfits, hvarLen, -, -, -, hscope, hroles⟩ := h
  refine ⟨hfits, hvarLen, .cons ?_ .nil, .cons fc.hasOpts .nil, fun _ => ⟨scope, head, rfl⟩, hscope⟩
  show fc.toFc.all _ = true
  cases hcontent : scope.isEventRecord with
  | true =>
    have hpart : (Phase.endScope scope head).part = .content := if_pos hcontent
    rw [decide_eq_true hpart]
    exact hroles hcontent
  | false =>
    have hpart : (Phase.endScope scope head).part = .outside :=
      if_neg (ne_true_of_eq_false hcontent)
    rw [decide_eq_false (hpart ▸ (by simp))]
    exact Fc.all_of_forall (fun _ => rfl) _

/-- The decoder goes on when the data is only requested. -/
theorem Going.requests (bytes : List UInt8) (h : d.Requests d') (hvarLen : d.curVarLenIntLen = 0) :
    d'.curVarLenIntLen = 0 ∧ d'.curPktOffsetInItemSeq = d.curPktOffsetInItemSeq ∧
      d'.headOffsetInCurPkt = d.headOffsetInCurPkt ∧
      (InPkt bytes d → InPkt bytes d') ∧ (LensSet d → LensSet d') := by
  rw [h]
  exact ⟨hvarLen, rfl, rfl, fun h => ⟨h.1, h.2⟩, fun h => ⟨h.1, h.2⟩⟩

theorem Going.setPktInfo (h : Going bytes ⟨d, [], .setPktInfo⟩)
    (hd' : d' = { d.withPktLens with pktInfo := d'.pktInfo }) (hlens : LensSet d') :
    Going bytes ⟨d', [], .tryBeginEventRecord⟩ := by
  have hfits : d.Fits bytes False := h.fits
  have hphase : InPkt bytes d := h.phase
  have hin : InPkt bytes d' := by
    rw [hd']
    refine ⟨hphase.1, fun h => hphase.2 ?_⟩
    simp only [Dec.withPktLens] at h
    by_contra hinf
    rw [not_or, not_not, not_not] at hinf
    simp [hinf] at h
  refine .of_phase ?_ (by rw [hd']; exact h.varLen) ⟨hin, hlens⟩
  rw [hd']
  exact ⟨hfits.1, hfits.2, hfits.3, hfits.4, hfits.5, hfits.6, False.elim⟩

theorem Going.phaseStep {r : Answer} (h : Going bytes ⟨d, [], phase⟩)
    (hstep : PhaseStep bytes d phase r) :
    r.Gives fun _ a => Going bytes a ∧ a.Lt bytes ⟨d, [], phase⟩ := by
  have hfits : d.Fits bytes False := h.fits
  have hvarLen : d.curVarLenIntLen = 0 := h.varLen
  have hphase : phase.Goes bytes d := h.phase
  cases hstep with
  | init =>
    exact ⟨.of_phase hfits hvarLen hphase, Agenda.lt_of_rank le_rfl le_rfl (by simp [Phase.rank])⟩
  | beginPkt hrequests hfits' hdata =>
    obtain ⟨hvarLen', hpkt, -⟩ := Going.requests bytes hrequests rfl
    exact ⟨.of_phase hfits' hvarLen' ⟨hdata, by rw [hrequests]; simp [resetForNewPkt]⟩,
      Agenda.lt_of_rank hpkt.ge hpkt.ge (by simp [Phase.rank])⟩
  | beginPktContent =>
    exact ⟨.of_phase hfits hvarLen ⟨⟨hphase, by rintro ⟨⟩, by rintro ⟨⟩⟩, by rintro ⟨⟩⟩,
      Agenda.lt_of_rank le_rfl le_rfl (by simp [Phase.rank, Scope.rank])⟩
  | endPktContent htakes hok =>
    have hpkt := htakes.advances.pktOffset
    have hhead := htakes.advances.head
    have hpos : 0 < d.headOffsetInCurPkt := hphase.1
    refine ⟨.of_phase htakes.fits (htakes.advances.varLen hvarLen) ⟨by omega, hok⟩,
      Agenda.lt_of_rank ?_ hpkt.ge (by simp [Phase.rank])⟩
    exact Nat.add_le_add hpkt.ge (hhead ▸ Nat.le_add_right _ _)
  | endPkt =>
    refine ⟨.of_phase (endReadPkt_fits hfits hphase.2) hvarLen ⟨rfl, rfl⟩,
      Agenda.lt_of_pktOffset le_rfl ?_ hfits.offset_le⟩
    exact Nat.lt_add_of_pos_right hphase.1
  | @beginScope scope fc head =>
    have hmark : Agenda.mark ⟨d, [], .tryBeginScope scope (some fc) head⟩ = _ :=
      Agenda.mark_scope d [] scope head
    exact ⟨h.of_field, Agenda.lt_of_rank (hmark.trans (Agenda.mark_scope ..).symm).le le_rfl
      (Nat.lt_succ_self _)⟩
  | skipScope hafter =>
    obtain ⟨hgoes, hrank, hmark⟩ := afterScope_goes hafter hphase.1
    exact ⟨.of_phase hfits hvarLen hgoes, Agenda.lt_of_rank ((Agenda.mark_scope d [] _ _).trans_le hmark)
      le_rfl (hrank.trans (Nat.lt_succ_self _))⟩
  | endScope hafter =>
    obtain ⟨hgoes, hrank, hmark⟩ := afterScope_goes hafter hphase
    exact ⟨.of_phase hfits hvarLen hgoes,
      Agenda.lt_of_rank ((Agenda.mark_scope ..).trans_le hmark) le_rfl hrank⟩
  | @setDataStreamInfo d' phase hd' hnext =>
    have hin : InPkt bytes d' := by
      rw [hd']
      exact ⟨hphase.1, hphase.2⟩
    have hfits' : d'.Fits bytes False := by
      refine hfits.congr ?_ ?_ ?_ ?_ ?_ ?_ <;> rw [hd']
    have hvarLen' : d'.curVarLenIntLen = 0 := by rw [hd', hvarLen]
    have hpkt : d'.curPktOffsetInItemSeq = d.curPktOffsetInItemSeq := by rw [hd']
    obtain rfl | ⟨fc, rfl⟩ := hnext
    · exact ⟨.of_phase hfits' hvarLen' hin, Agenda.lt_of_rank hpkt.ge hpkt.ge (by simp [Phase.rank])⟩
    · exact ⟨.of_phase hfits' hvarLen' ⟨⟨hin, by rintro ⟨⟩, by rintro ⟨⟩⟩, by rintro ⟨⟩⟩,
        Agenda.lt_of_rank hpkt.ge hpkt.ge (by simp [Phase.rank, Scope.rank])⟩
  | @setPktInfo d' hd' hlens =>
    have hpkt : d'.curPktOffsetInItemSeq = d.curPktOffsetInItemSeq := by rw [hd']; rfl
    exact ⟨h.setPktInfo hd' hlens,
      Agenda.lt_of_rank (Nat.add_le_add hpkt.ge (Nat.zero_le _)) hpkt.ge (by simp [Phase.rank])⟩
  | @beginEventRecord d' cls hrequests hfits' hcls =>
    obtain ⟨hvarLen', hpkt, hhead, hin, hlens⟩ := Going.requests bytes hrequests hvarLen
    have hrecord : InRecord d'.headOffsetInCurPkt d' :=
      ⟨hlens hphase.2, le_rfl, by rw [hrequests, hcls]; rfl⟩
    exact ⟨.of_phase hfits' hvarLen'
        ⟨⟨hin hphase.1, fun _ => hrecord, by rintro ⟨⟩⟩, fun _ => cls.eventRecordHeader_roles⟩,
      Agenda.lt_of_rank (Nat.add_le_add hpkt.ge hhead.ge) hpkt.ge (by simp [Phase.rank, Scope.rank])⟩
  | noEventRecord hrequests hfits' _ hpos hok =>
    obtain ⟨hvarLen', hpkt, hhead, -, hlens⟩ := Going.requests bytes hrequests hvarLen
    refine ⟨.of_phase hfits' hvarLen' ⟨hhead ▸ hpos, hlens hphase.2, ?_⟩,
      Agenda.lt_of_rank (Nat.add_le_add hpkt.ge hhead.ge) hpkt.ge (by simp [Phase.rank])⟩
    rw [hrequests]
    exact hok
  | @setEventRecordInfo d' cls head hd' =>
    obtain ⟨hin, hlens, hle, hcls⟩ := hphase
    have hfits' : d'.Fits bytes False := by
      refine hfits.congr ?_ ?_ ?_ ?_ ?_ ?_ <;> rw [hd']
    have hscope : InScope bytes .commonEventRecordCtx head d' := by
      rw [hd']
      exact ⟨⟨hin.1, hin.2⟩, fun _ => ⟨⟨hlens.1, hlens.2⟩, hle, hcls⟩, by rintro ⟨⟩⟩
    have hpkt : d'.curPktOffsetInItemSeq = d.curPktOffsetInItemSeq := by rw [hd']
    exact ⟨.of_phase hfits' (by rw [hd', hvarLen]) ⟨hscope, fun _ => cls.commonEventRecordCtx_roles⟩,
      Agenda.lt_of_rank (Nat.add_le_add hpkt.ge le_rfl) hpkt.ge (by simp [Phase.rank, Scope.rank])⟩
  | endEventRecord hne =>
    refine ⟨.of_phase hfits hvarLen ⟨hphase.1, hphase.2.lens⟩,
      Agenda.lt_of_mark ?_ hfits.offset_le le_rfl⟩
    exact Nat.add_lt_add_left (lt_of_le_of_ne hphase.2.head_le (Ne.symm hne)) _
  | ended | undefined | failed => trivial

section
variable (hbytes : 8 * bytes.length ≤ infDataLen) (hm : m.Over bytes) (hready : m.Ready)
include hbytes hm hready

theorem Going.reply (tc : TraceCls) (h : Going bytes a) :
    (a.reply tc m).Gives fun _ a' => Going bytes a' ∧ a'.Lt bytes a := by
  obtain ⟨d, tasks, phase⟩ := a
  cases tasks with
  | nil => exact h.phaseStep (doPhase_step hbytes hm hready h)
  | cons task rest => exact h.doTask hm hready

theorem Going.fault_iff (tc : TraceCls) (h : Going bytes a) :
    (a.reply tc m = .failed .fault ↔ a.Undefined bytes) ∧ a.reply tc m ≠ .failed .tryAgain := by
  obtain ⟨d, tasks, phase⟩ := a
  cases tasks with
  | nil => exact (doPhase_step hbytes hm hready h).fault_iff
  | cons task rest =>
    have hworks := doTask_works hm hready h.fits h.varLen h.tasks h.opts phase
    change (ItemSeq.doTask m rest phase d task = _ ↔ _) ∧ ItemSeq.doTask m rest phase d task ≠ _
    cases hr : ItemSeq.doTask m rest phase d task with
    | item i a =>
      rw [hr] at hworks
      exact ⟨⟨by rintro ⟨⟩, fun hun => absurd hun hworks.2⟩, by simp⟩
    | failed e =>
      rw [hr] at hworks
      obtain ⟨he, hdefined⟩ | ⟨rfl, hun⟩ := hworks
      · refine ⟨⟨?_, fun hun => absurd hun hdefined⟩, ?_⟩
        · rintro ⟨⟩
          exact he.elim
        · rintro ⟨⟩
          exact he
      · exact ⟨⟨fun _ => hun, fun _ => rfl⟩, by simp⟩
    | _ =>
      rw [hr] at hworks
      exact hworks.elim

end

theorem Going.start (bytes : List UInt8) : Going bytes ⟨{}, [], .init⟩ :=
  .of_phase ⟨rfl, rfl, le_rfl, le_rfl, Nat.zero_le _, rfl, False.elim⟩ rfl ⟨rfl, rfl⟩

end

/-! ## What packets and event records consume -/

/-- The offset of the last item which satisfies `p` -/
def lastOffset (p : Item → Bool) (items : List (Item × ℕ)) : Option ℕ :=
  items.foldl (fun last item => if p item.1 then some item.2 else last) none

theorem lastOffset_concat (p : Item → Bool) (items : List (Item × ℕ)) (i : Item) (offset : ℕ) :
    lastOffset p (items ++ [(i, offset)]) = if p i then some offset else lastOffset p items := by
  rw [lastOffset, List.foldl_append]
  rfl

def Phase.inPkt : Phase → Bool
  | .init | .tryBeginPkt => false
  | _ => true

structure Marked (items : List (Item × ℕ)) (a : Agenda) : Prop where
  pkt : a.phase.inPkt = true → lastOffset Item.isPktBegin items = some a.dec.curPktOffsetInItemSeq
  nextPkt : a.phase.inPkt = false → ∀ offset ∈ lastOffset Item.isPktBegin items,
    offset < a.dec.curPktOffsetInItemSeq
  record : ∀ head ∈ a.phase.recordHead,
    lastOffset Item.isEventRecordBegin items = some (a.dec.curPktOffsetInItemSeq + head)

def Consumes (items : List (Item × ℕ)) (i : Item) (offset : ℕ) : Prop :=
  (i.isEventRecordEnd = true → ∃ begin ∈ lastOffset Item.isEventRecordBegin items, begin < offset) ∧
    (i.isPktBegin = true → ∀ begin ∈ lastOffset Item.isPktBegin items, begin < offset)

def MarkedReply (items : List (Item × ℕ)) (d : Dec) : Answer → Prop
  | .continue a | .again a => Marked items a
  | .item i a => Consumes items i (itemOffset i d a.dec) ∧
      Marked (items ++ [(i, itemOffset i d a.dec)]) a
  | .ended | .failed _ => True

section
variable {bytes : List UInt8} {tc : TraceCls} {m : Medium} {d d' : Dec} {tasks tasks' : List Task}
  {phase phase' : Phase} {items : List (Item × ℕ)} {i : Item}

theorem Marked.keep (h : Marked items ⟨d, tasks, phase⟩)
    (hpkt : d'.curPktOffsetInItemSeq = d.curPktOffsetInItemSeq) (hphase : phase'.inPkt = phase.inPkt)
    (hhead : ∀ head ∈ phase'.recordHead, head ∈ phase.recordHead) :
    Marked items ⟨d', tasks', phase'⟩ := by
  refine ⟨fun hin => ?_, fun hin => ?_, fun head hmem => ?_⟩
  · exact hpkt ▸ h.pkt (hphase ▸ hin)
  · exact hpkt ▸ h.nextPkt (hphase ▸ hin)
  · exact hpkt ▸ h.record head (hhead head hmem)

theorem Marked.item (h : Marked items ⟨d, tasks, phase⟩) (hi : i.isMark = false)
    (hpkt : d'.curPktOffsetInItemSeq = d.curPktOffsetInItemSeq) (hphase : phase'.inPkt = phase.inPkt)
    (hhead : ∀ head ∈ phase'.recordHead, head ∈ phase.recordHead) :
    MarkedReply items d (.item i ⟨d', tasks', phase'⟩) := by
  simp only [Item.isMark, Bool.or_eq_false_iff] at hi
  obtain ⟨⟨hpktBegin, hbegin⟩, hend⟩ := hi
  have h' : Marked items ⟨d', tasks', phase'⟩ := h.keep hpkt hphase hhead
  refine ⟨⟨fun h => by simp [hend] at h, fun h => by simp [hpktBegin] at h⟩, ?_, ?_, ?_⟩
  · rw [lastOffset_concat, hpktBegin, if_neg Bool.false_ne_true]
    exact h'.pkt
  · rw [lastOffset_concat, hpktBegin, if_neg Bool.false_ne_true]
    exact h'.nextPkt
  · rw [lastOffset_concat, hbegin, if_neg Bool.false_ne_true]
    exact h'.record

theorem afterScope_recordHead (h : Phase.afterScope d head scope = some phase) :
    phase.inPkt = true ∧ ∀ head' ∈ phase.recordHead, head' ∈ (Phase.endScope scope head).recordHead := by
  cases scope with
  | commonEventRecordCtx =>
    simp only [Phase.afterScope] at h
    split at h <;> cases h <;> exact ⟨rfl, fun _ h => h⟩
  | specEventRecordCtx =>
    obtain ⟨cls, -, rfl⟩ := Option.map_eq_some_iff.mp h
    exact ⟨rfl, fun _ h => h⟩
  | _ =>
    cases h
    exact ⟨rfl, fun _ h => h⟩

theorem Marked.doTask (hm : m.Over bytes) (hready : m.Ready) {rest : List Task}
    (hgoing : Going bytes ⟨d, task :: rest, phase⟩) (h : Marked items ⟨d, task :: rest, phase⟩) :
    MarkedReply items d (doTask m rest phase d task) := by
  have hworks := doTask_works hm hready hgoing.fits hgoing.varLen hgoing.tasks hgoing.opts phase
  have hleaves : Leaves _ phase (ItemSeq.doTask m rest phase d task) :=
    doTask_tasks (.of_ok hgoing.tasks)
  cases hr : ItemSeq.doTask m rest phase d task with
  | item i a =>
    rw [hr] at hworks hleaves
    obtain ⟨d', tasks, phase⟩ := a
    obtain ⟨rfl, -⟩ := hleaves
    exact h.item (Worked.mark hworks.1) (Worked.pktOffset hworks.1) rfl fun _ h => h
  | ended | failed => trivial
  | _ =>
    rw [hr] at hworks
    exact hworks.elim

theorem Marked.phaseStep {r : Answer} (hgoing : Going bytes ⟨d, [], phase⟩)
    (h : Marked items ⟨d, [], phase⟩) (hstep : PhaseStep bytes d phase r) : MarkedReply items d r := by
  have hgoes : phase.Goes bytes d := hgoing.phase
  cases hstep with
  | init => exact h.keep rfl rfl (by rintro _ ⟨⟩)
  | @beginPkt d' hrequests _ _ =>
    have hpkt : d'.curPktOffsetInItemSeq = d.curPktOffsetInItemSeq := by rw [hrequests]; rfl
    have hhead : d'.headOffsetInCurPkt = 0 := by rw [hrequests]; rfl
    have hoffset : itemOffset .pktBegin d d' = d'.curPktOffsetInItemSeq := by
      simp only [itemOffset, Dec.headOffsetInItemSeq, hhead, Nat.add_zero]
    refine ⟨⟨by rintro ⟨⟩, fun _ begin hbegin => ?_⟩, fun _ => ?_, by rintro ⟨⟩, by rintro _ ⟨⟩⟩
    · rw [hoffset, hpkt]
      exact h.nextPkt rfl begin hbegin
    · rw [lastOffset_concat, hoffset]
      rfl
  | beginPktContent => exact h.item rfl rfl rfl (by rintro _ ⟨⟩)
  | endPktContent htakes => exact h.item rfl htakes.advances.pktOffset rfl (by rintro _ ⟨⟩)
  | endPkt =>
    refine ⟨⟨by rintro ⟨⟩, by rintro ⟨⟩⟩, by rintro ⟨⟩, fun _ begin hbegin => ?_, by rintro _ ⟨⟩⟩
    rw [lastOffset_concat] at hbegin
    cases (h.pkt rfl).symm.trans hbegin
    exact Nat.lt_add_of_pos_right hgoes.1
  | beginScope => exact h.item rfl rfl rfl fun _ h => h
  | skipScope hafter =>
    obtain ⟨hin, hhead⟩ := afterScope_recordHead hafter
    exact h.keep rfl hin hhead
  | endScope hafter =>
    obtain ⟨hin, hhead⟩ := afterScope_recordHead hafter
    exact h.item rfl rfl hin hhead
  | setDataStreamInfo hd' hnext =>
    obtain rfl | ⟨fc, rfl⟩ := hnext <;>
      exact h.item rfl (by rw [hd']) rfl (by rintro _ ⟨⟩)
  | setPktInfo hd' => exact h.item rfl (by rw [hd']; rfl) rfl (by rintro _ ⟨⟩)
  | @beginEventRecord d' _ hrequests =>
    have hpkt : d'.curPktOffsetInItemSeq = d.curPktOffsetInItemSeq := by rw [hrequests]
    refine ⟨⟨by rintro ⟨⟩, by rintro ⟨⟩⟩, fun _ => ?_, by rintro ⟨⟩, ?_⟩
    · rw [lastOffset_concat]
      exact hpkt ▸ h.pkt rfl
    · rintro _ ⟨⟩
      rw [lastOffset_concat]
      rfl
  | noEventRecord hrequests => exact h.keep (by rw [hrequests]) rfl (by rintro _ ⟨⟩)
  | setEventRecordInfo hd' => exact h.item rfl (by rw [hd']) rfl fun _ h => h
  | @endEventRecord head hne =>
    have hlt : head < d.headOffsetInCurPkt := lt_of_le_of_ne hgoes.2.head_le (Ne.symm hne)
    refine ⟨⟨fun _ => ⟨_, h.record head rfl, Nat.add_lt_add_left hlt _⟩, by rintro ⟨⟩⟩, fun _ => ?_,
      by rintro ⟨⟩, by rintro _ ⟨⟩⟩
    rw [lastOffset_concat]
    exact h.pkt rfl
  | ended | undefined | failed => trivial

theorem Marked.reply (tc : TraceCls) (hbytes : 8 * bytes.length ≤ infDataLen) (hm : m.Over bytes)
    (hready : m.Ready) (hgoing : Going bytes a) (h : Marked items a) :
    MarkedReply items a.dec (a.reply tc m) := by
  obtain ⟨d, tasks, phase⟩ := a
  cases tasks with
  | nil => exact h.phaseStep hgoing (doPhase_step hbytes hm hready hgoing)
  | cons task rest => exact h.doTask hm hready hgoing

end

/-! ## Runs -/

/-- The decoder gets to a state, which stands for an agenda, of which the handler has undefined
behaviour. -/
def ReachesUndefined (tc : TraceCls) (m : Medium) (bytes : List UInt8) : Prop :=
  ∃ items s a, Steps (reply tc) (Alone m) {} items s ∧
    Steps (Agenda.reply tc) (Alone m) ⟨{}, [], .init⟩ items a ∧ Rel s a ∧ a.Undefined bytes

section
variable (tc : TraceCls) {bytes : List UInt8} (hbytes : 8 * bytes.length ≤ infDataLen) {m : Medium}
  (hm : m.Over bytes) (hready : m.Ready)
include hbytes hm hready

theorem steps_going {items : List Item}
    (hsteps : Steps (Agenda.reply tc) (Alone m) ⟨{}, [], .init⟩ items a) : Going bytes a := by
  refine hsteps.keeps (I := Going bytes) (fun {m' a} hm' h => ?_) (Going.start bytes)
  cases hm'
  exact (h.reply hbytes hm hready tc).mono fun _ _ h => h.1

theorem steps_marked {items : List (Item × ℕ)}
    (hsteps : Steps (Agenda.offsetReply tc) (Alone m) ⟨{}, [], .init⟩ items a) :
    Going bytes a ∧ Marked items a := by
  have hstart : Going bytes ⟨{}, [], .init⟩ ∧ Marked [] ⟨{}, [], .init⟩ :=
    ⟨.start bytes, by rintro ⟨⟩, by rintro _ _ ⟨⟩, by rintro _ ⟨⟩⟩
  refine hsteps.invariant (I := fun items a => Going bytes a ∧ Marked items a)
    (fun {m' a items} hm' h => ?_) hstart
  cases hm'
  have hgoing := h.1.reply hbytes hm hready tc
  have hmarked := h.2.reply tc hbytes hm hready h.1
  unfold Agenda.offsetReply
  cases hreply : a.reply tc m with
  | «continue» a' | again a' =>
    rw [hreply] at hgoing hmarked
    rw [withOffset, Reply.Gives, List.append_nil]
    exact ⟨hgoing.1, hmarked⟩
  | item i a' =>
    rw [hreply] at hgoing hmarked
    exact ⟨hgoing.1, hmarked.2⟩
  | ended | failed => trivial

theorem fault_iff_reachesUndefined {items : List Item} {o : Outcome Exc}
    (hruns : Runs (reply tc) (Alone m) {} items o) :
    (o = .failed .fault ↔ ReachesUndefined tc m bytes) ∧ o ≠ .failed .tryAgain := by
  have hrel : Rel {} ⟨{}, [], .init⟩ := .phase (.init rfl)
  have hagenda := (runs_agenda hrel).mp hruns
  -- the last state of a run which fails
  have hlast (e : Exc) (he : o = .failed e) : ∃ s a, Steps (reply tc) (Alone m) {} items s ∧
      Steps (Agenda.reply tc) (Alone m) ⟨{}, [], .init⟩ items a ∧ Rel s a ∧
      a.reply tc m = .failed e := by
    subst he
    obtain ⟨m', s, hm', hsteps, hfailed⟩ := hruns.exists_failed
    cases hm'
    obtain ⟨a, hsteps', hrel'⟩ := steps_agenda hrel hsteps
    have hsim := reply_sim tc m hrel'
    rw [hfailed] at hsim
    refine ⟨s, a, hsteps, hsteps', hrel', ?_⟩
    generalize a.reply tc m = r at hsim
    cases hsim
    rfl
  refine ⟨⟨fun hfault => ?_, ?_⟩, fun hagain => ?_⟩
  · obtain ⟨s, a, hsteps, hsteps', hrel', hreply⟩ := hlast .fault hfault
    have hgoing := steps_going tc hbytes hm hready hsteps'
    exact ⟨items, s, a, hsteps, hsteps', hrel', (hgoing.fault_iff hbytes hm hready tc).1.mp hreply⟩
  · rintro ⟨items', s, a, -, hsteps', -, hun⟩
    have hgoing := steps_going tc hbytes hm hready hsteps'
    have hfault := (hgoing.fault_iff hbytes hm hready tc).1.mpr hun
    exact (Runs.det (hsteps'.runs (.failed rfl hfault)) hagenda).2
  · obtain ⟨s, a, -, hsteps', -, hreply⟩ := hlast .tryAgain hagain
    have hgoing := steps_going tc hbytes hm hready hsteps'
    exact (hgoing.fault_iff hbytes hm hready tc).2 hreply

/-- Iterating a finite item sequence ends, with undefined behaviour if and only if the decoder gets to
such a state. An event record, and a packet which another one follows, consume data. -/
theorem decoder_ends :
    (∃ items o, Run tc (Alone m) {} items o ∧
      ((o = .ended ∨ ∃ offset cause, o = .failed (.error offset cause)) ↔
        ¬ReachesUndefined tc m bytes)) ∧
    ∀ items s i offset s', Steps (offsetReply tc) (Alone m) {} items s →
      offsetReply tc m s = .item (i, offset) s' → Consumes items i offset := by
  constructor
  · obtain ⟨items, o, hruns⟩ := exists_runs (P := Alone m) (Agenda.lt_wf bytes) (fun _ => rfl)
      (fun a h => Going.reply hbytes hm hready tc h) (Going.start bytes)
    have hrel : Rel {} ⟨{}, [], .init⟩ := .phase (.init rfl)
    have hruns := (runs_agenda hrel).mpr hruns
    obtain ⟨hfault, hagain⟩ := fault_iff_reachesUndefined tc hbytes hm hready hruns
    refine ⟨items, o, run_iff_runs.mpr hruns, ?_⟩
    rw [← hfault]
    cases o with
    | ended => simp
    | failed e =>
      cases e with
      | error offset cause => simp
      | fault => simp
      | tryAgain => exact absurd rfl hagain
  · intro items s i offset s' hsteps hreply
    obtain ⟨a, hsteps, hrel⟩ := offset_steps_agenda hsteps
    obtain ⟨a', hitem, rfl, -⟩ := hrel.offsetReply_item hreply
    obtain ⟨hgoing, hmarked⟩ := steps_marked tc hbytes hm hready hsteps
    have hreply := hmarked.reply tc hbytes hm hready hgoing
    rw [hitem] at hreply
    exact hreply.1

end

/-! ### A packet which has padding, and undefined behaviour -/

theorem decoder_ends_padded : ∃ items, Run paddedTraceCls (Alone paddedMedium) {} items .ended ∧
    ¬ReachesUndefined paddedTraceCls paddedMedium [24, 32, 7, 0] := by
  obtain ⟨⟨items, o, hrun, hiff⟩, -⟩ := decoder_ends paddedTraceCls
    (show 8 * [24, 32, 7, 0].length ≤ infDataLen by decide) (Medium.ofBytes_over _ 1)
    (Medium.ofBytes_ready _ 1)
  obtain ⟨items', hrun', -⟩ := paddedMedium_run
  obtain ⟨rfl, rfl⟩ := Runs.det (run_iff_runs.mp hrun) (run_iff_runs.mp hrun')
  exact ⟨_, hrun', hiff.mp (.inl rfl)⟩

def noClsTraceCls : TraceCls where
  pktHeaderFc := none
  dataStreamClss := []

def savedBoolTraceCls : TraceCls where
  pktHeaderFc := none
  dataStreamClss := [{
    id := 0
    pktCtxFc := some { align := 8, members := [
      .scalar (.fixedLen .bool { align := 8, len := 8, byteOrder := .big, bitOrder := .lastToFirst } []
        [0]),
      byteFc []] }
    eventRecordHeaderFc := none
    commonEventRecordCtxFc := none
    hasDefClkCls := false
    eventRecordClss := [] }]

theorem run_fault {tc : TraceCls} {m : Medium} (h : evalCheck (reply tc) (fun _ _ => m) 30 {}
    (fun _ o => o = .failed .fault) = true) : ∃ items, Run tc (Alone m) {} items (.failed .fault) := by
  obtain ⟨items, o, hrun, hc⟩ := evalCheck_sound (P := Alone m) (fun _ _ => rfl) h
  obtain rfl := of_decide_eq_true hc
  exact ⟨items, run_iff_runs.mpr hrun⟩

/-- Without a data stream class, an event record follows a null class; the value of the boolean
field is saved with the class of the integer field. -/
theorem decoder_undefined :
    (∃ items, Run noClsTraceCls (Alone (.ofBytes [0] 1)) {} items (.failed .fault)) ∧
      ∃ items, Run savedBoolTraceCls (Alone (.ofBytes [1, 0] 1)) {} items (.failed .fault) :=
  ⟨run_fault (by decide +kernel), run_fault (by decide +kernel)⟩

end Babeltrace.ItemSeq
