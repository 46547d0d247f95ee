import Babeltrace.ItemSeqAgenda
import Babeltrace.ItemSeqPadding

/-!
# What reading a field changes

Reading data changes the buffer, the head, and what serves to read the next bytes.
-/
namespace Babeltrace.ItemSeq
open Machine Program

/-- `d'` is `d` after some data is requested or read. -/
def Dec.Reads (d d' : Dec) : Prop :=
  d' = { d with
    buf := d'.buf
    bufOffsetInCurPkt := d'.bufOffsetInCurPkt
    headOffsetInCurPkt := d'.headOffsetInCurPkt
    lastFixedLenBitArrayFieldByteOrder := d'.lastFixedLenBitArrayFieldByteOrder
    curVarLenIntVal := d'.curVarLenIntVal
    curVarLenIntLen := d'.curVarLenIntLen }

theorem Dec.Reads.refl (d : Dec) : d.Reads d := rfl

variable {d d' : Dec} {α : Type} {m : Medium} {tasks : List Task} {phase : Phase} {task : Task}
  {fc : Fc} {d'' : Dec} {align : ℕ} {ts : List Task} {fcs : List Fc} {sfc : ScalarFc}

theorem Dec.Reads.expectedTotalLen_eq (h : d.Reads d') :
    d'.expectedTotalLen = d.expectedTotalLen := by
  rw [h]

theorem Dec.Reads.trans (h : d.Reads d') (h' : d'.Reads d'') : d.Reads d'' := by
  unfold Dec.Reads at *
  rw [h', h]

theorem failWith_reads (cause : Err) : Moves Dec.Reads (failWith cause : DecM α) :=
  Dec.Reads.refl

theorem Dec.Requests.reads (h : d.Requests d') : d.Reads d' := by
  rw [h]
  exact rfl

theorem requireContentData_reads (m : Medium) (len : ℕ) :
    Moves Dec.Reads (requireContentData m len) :=
  (requireContentData_requests m len).mono Dec.Requests.reads

theorem readBuf_reads (size : ℕ) : Moves Dec.Reads (readBuf size) := by
  intro d
  unfold readBuf
  by_cases h : size ≤ d.bufAtHead.length <;> simp only [h, if_true, if_false] <;> exact .refl d

theorem checkLastByteOrder_reads (fc : FixedLenBitArrayFc) :
    Moves Dec.Reads (checkLastByteOrder fc) := by
  refine .get_bind fun d => ?_
  cases d.lastFixedLenBitArrayFieldByteOrder with
  | none => exact .pure .refl _
  | some last => exact .ite (failWith_reads _) (.pure .refl _)

theorem readFixedLenInt_reads (m : Medium) (isSigned : Bool) (p : ReadParams)
    (fc : FixedLenBitArrayFc) : Moves Dec.Reads (readFixedLenInt m isSigned p fc) := by
  refine .bind .trans (requireContentData_reads m fc.len) fun _ => .get_bind fun d => ?_
  have hend (val : ℤ) : Moves Dec.Reads (do
      modify fun d : Dec => { d with lastFixedLenBitArrayFieldByteOrder := some fc.byteOrder }
      consumeAvailData fc.len
      pure val : DecM ℤ) := fun _ => rfl
  by_cases h0 : p.lenBits = 0
  · simp only [h0, if_true]
    exact .bind .trans (checkLastByteOrder_reads fc) fun _ =>
      .bind .trans (readBuf_reads _) fun _ => hend _
  · simp only [h0, if_false]
    exact .bind .trans (readBuf_reads _) fun _ => hend _

theorem appendVarLenIntByte_reads (isSigned : Bool) (byte : ℕ) :
    Moves Dec.Reads (appendVarLenIntByte isSigned byte) := by
  refine .get_bind fun d => .ite (.bind .trans (failWith_reads _) fun _ => ?_) ?_
  · exact fun _ => rfl
  · exact fun _ => rfl

theorem varLenLoop_reads (m : Medium) (isSigned : Bool) (n : ℕ) :
    Moves Dec.Reads (varLenLoop m isSigned n) := by
  induction n with
  | zero => exact fun d => .refl d
  | succ n ih =>
    refine .bind .trans (requireContentData_reads m 8) fun _ =>
      .bind .trans (readBuf_reads 1) fun _ =>
      .bind .trans (appendVarLenIntByte_reads isSigned _) fun _ => .ite ?_ ih
    exact .get_bind fun d => fun _ => rfl

theorem readRawData_reads (m : Medium) (remaining : ℕ) :
    Moves Dec.Reads (readRawData m remaining) := by
  have hread (len : ℕ) : Moves Dec.Reads (do
      let bytes ← readBuf len
      consumeAvailData (8 * len)
      pure bytes : DecM (List UInt8)) :=
    .bind .trans (readBuf_reads len) fun _ => fun _ => rfl
  exact .bind .trans (requireContentData_reads m 8) fun _ => .get_bind fun d =>
    .ite (.bind .trans (failWith_reads _) fun _ => hread _) (hread _)

theorem readRawData_length_le {remaining : ℕ} {bytes : List UInt8}
    (h : readRawData m remaining d = .ok bytes d') : bytes.length ≤ remaining := by
  obtain ⟨_, d₁, -, h⟩ := bind_eq_ok h
  simp only [get_bind_apply] at h
  split at h
  · obtain ⟨_, _, hfail, _⟩ := bind_eq_ok h
    cases hfail
  · obtain ⟨bytes', d₂, hbytes, h⟩ := bind_eq_ok h
    cases h
    unfold readBuf at hbytes
    split at hbytes
    · cases hbytes
      simp only [List.length_take]
      omega
    · cases hbytes

theorem readSubstr_reads (m : Medium) (cu : CodeUnit) (part : List UInt8) :
    Moves Dec.Reads (readSubstr m cu part) := by
  refine .bind .trans (requireContentData_reads m 8) fun _ => .get_bind fun d =>
    .bind .trans (readBuf_reads _) fun bytes => .ite ?_ ?_
  · exact .bind .trans (failWith_reads _) fun _ => fun _ => rfl
  · exact fun _ => rfl

theorem skipLoop_reads (m : Medium) (c : Bool) (n : ℕ) :
    Moves (fun s s' : Dec × ℕ => s.1.Reads s'.1) (skipLoop m c n) := by
  induction n with
  | zero =>
    intro s
    simp only [skipLoop]
    by_cases h : s.2 = 0 <;> simp only [h, if_true, if_false] <;> exact .refl s.1
  | succ n ih =>
    rintro ⟨d, r⟩
    simp only [skipLoop]
    by_cases h0 : r = 0
    · simp only [h0, if_true]
      exact .refl d
    simp only [h0, if_false]
    have hreq := (requirePadding_requests m c).mono Dec.Requests.reads
    cases hd : (if c = true then requireContentData m 1 else requireData m 1) d with
    | error e d₁ => exact hreq.error hd
    | ok _ d₁ =>
      have h₁ := hreq.ok hd
      by_cases hlen : min r d₁.remainingBufLen = 0
      · simp only [hlen, if_true]
        exact h₁
      · simp only [hlen, if_false]
        have h₂ := ih ({ d₁ with
          headOffsetInCurPkt := d₁.headOffsetInCurPkt + min r d₁.remainingBufLen },
          r - min r d₁.remainingBufLen)
        have h₁₂ : d₁.Reads { d₁ with
          headOffsetInCurPkt := d₁.headOffsetInCurPkt + min r d₁.remainingBufLen } := rfl
        split at h₂ <;> exact h₁.trans (h₁₂.trans h₂)

/-! ## Information items -/

theorem setDataStreamInfo_moves (tc : TraceCls) : Moves (fun d d' : Dec => d' = { d with
    dataStreamInfo := d'.dataStreamInfo, curClsId := d'.curClsId }) (setDataStreamInfo tc) := by
  refine .get_bind fun d => ?_
  cases d.curClsId with
  | some id =>
    simp only
    cases tc.find id <;> exact fun _ => rfl
  | none =>
    simp only
    split <;> exact fun _ => rfl

theorem setPktInfo_ok (h : setPktInfo d = .ok () d') :
    d' = { d.withPktLens with pktInfo := d'.pktInfo } ∧ d.withPktLens.expectedTotalLen % 8 = 0 ∧
      d.withPktLens.expectedContentLen ≤ d.withPktLens.expectedTotalLen := by
  obtain ⟨_, d₁, h₁, h⟩ := bind_eq_ok h
  cases h₁
  rw [get_bind_apply] at h
  split at h
  · cases h
  rename_i htotal
  split at h
  · cases h
  rename_i hcontent
  refine ⟨?_, by omega, by omega⟩
  split at h <;> cases h <;> rfl

def Dec.SetsEventRecord (d d' : Dec) : Prop := d' = { d with eventRecordInfo := d'.eventRecordInfo }

theorem Dec.SetsEventRecord.trans (h : d.SetsEventRecord d') (h' : d'.SetsEventRecord d'') :
    d.SetsEventRecord d'' := by
  unfold Dec.SetsEventRecord at *
  rw [h', h]

theorem setEventRecordCls_moves (cls : DataStreamCls) :
    Moves Dec.SetsEventRecord (setEventRecordCls cls) := by
  refine .get_bind fun d => ?_
  cases d.curClsId with
  | some id =>
    simp only
    cases cls.find id <;> exact fun _ => rfl
  | none =>
    simp only
    split <;> exact fun _ => rfl

theorem setEventRecordInfo_ok {cls : DataStreamCls} (h : setEventRecordInfo d = .ok cls d') :
    d.dataStreamInfo.cls = some cls ∧ d.SetsEventRecord d' := by
  rw [setEventRecordInfo, get_bind_apply] at h
  cases hcls : d.dataStreamInfo.cls with
  | none =>
    rw [hcls] at h
    cases h
  | some cls' =>
    rw [hcls] at h
    obtain ⟨_, d₁, hset, h⟩ := bind_eq_ok h
    have hd₁ := (setEventRecordCls_moves cls').ok hset
    split at h <;> cases h <;> exact ⟨rfl, hd₁.trans rfl⟩

theorem setDataStreamInfo_never (tc : TraceCls) : Never .tryAgain (setDataStreamInfo tc) := by
  refine .get_bind fun d => ?_
  cases d.curClsId with
  | some id =>
    simp only
    cases tc.find id with
    | none => exact failWith_never _
    | some cls =>
      intro d d' h
      cases h
  | none =>
    simp only
    split
    · intro d d' h
      cases h
    · exact .pure _ _

theorem setPktInfo_never : Never .tryAgain setPktInfo := by
  refine .modify_bind _ (.get_bind fun _ => .ite (failWith_never _) (.ite (failWith_never _)
    (.ite ?_ (.pure _ _))))
  intro d d' h
  cases h

theorem setEventRecordInfo_never : Never .tryAgain setEventRecordInfo := by
  refine .get_bind fun d => ?_
  cases d.dataStreamInfo.cls with
  | none =>
    intro d d' h
    cases h
  | some cls =>
    refine .bind (.get_bind fun d => ?_) fun _ => .ite (.modify_bind _ (.pure _ _)) (.pure _ _)
    cases d.curClsId with
    | some id =>
      simp only
      cases cls.find id with
      | none => exact failWith_never _
      | some erCls =>
        intro d d' h
        cases h
    | none =>
      simp only
      split
      · intro d d' h
        cases h
      · exact .pure _ _

theorem hasEventRecord_requests (m : Medium) : Moves Dec.Requests (hasEventRecord m) :=
  .get_bind fun _ => .ite (.ite (tryHaveData_requests m 1) (.pure .refl _)) (.pure .refl _)

theorem hasEventRecord_reads (m : Medium) : Moves Dec.Reads (hasEventRecord m) :=
  (hasEventRecord_requests m).mono Dec.Requests.reads

/-! ## Rules for the agenda -/

theorem tryDec_rule {Q : Answer → Prop} {p : DecM α} {k : α → Dec → Answer}
    (hok : ∀ a d', p d = .ok a d' → Q (k a d'))
    (hagain : ∀ d', p d = .error .tryAgain d' → Q (.again ⟨d', tasks, phase⟩))
    (hfailed : ∀ e, Q (.failed e)) : Q (tryDec p tasks phase d k) := by
  unfold tryDec
  cases hp : p d with
  | ok a d' => exact hok a d' hp
  | error e d' =>
    cases e with
    | tryAgain => exact hagain d' hp
    | error | fault => exact hfailed _

theorem tryAlign_rule {Q : Answer → Prop} {k : Dec → Answer}
    (hok : ∀ d' r, d.alignLen align ≤ d.remainingPktContentLen ∨ d' = d →
      skipLoop m true (d.alignLen align) (d, d.alignLen align) = .ok () (d', r) → Q (k d'))
    (hagain : ∀ d' r, d.alignLen align ≤ d.remainingPktContentLen →
      skipLoop m true (d.alignLen align) (d, d.alignLen align) = .error .tryAgain (d', r) →
      Q (.again ⟨d', .skip r :: tasks, phase⟩)) (hfailed : ∀ e, Q (.failed e)) :
    Q (tryAlign m align tasks phase d k) := by
  unfold tryAlign
  split
  · rename_i h0
    exact hok d 0 (.inr rfl) (by simp [h0, skipLoop])
  · split
    · exact hfailed _
    · rename_i hle
      have hle : d.alignLen align ≤ d.remainingPktContentLen := by omega
      split
      · rename_i hs
        exact hok _ _ (.inl hle) hs
      · rename_i hs
        exact hagain _ _ hle hs
      · exact hfailed _

mutual

theorem Fc.all_of_forall {p : Fc → Bool} (h : ∀ fc, p fc = true) : ∀ fc : Fc, fc.all p = true
  | .scalar _ | .strBlob _ => h _
  | .staticLenArray _ _ fc | .dynLenArray _ _ fc | .optional _ _ fc => by
    rw [Fc.all, h, fc.all_of_forall h, Bool.and_self]
  | .staticLenArrayWithMetadataStreamUuidRole _ _ => h _
  | .struct _ members => by rw [Fc.all, h, Fc.allOf_of_forall h members, Bool.and_self]
  | .variant _ _ _ opts => by rw [Fc.all, h, Fc.allOf_of_forall h opts, Bool.and_self]

theorem Fc.allOf_of_forall {p : Fc → Bool} (h : ∀ fc, p fc = true) :
    ∀ fcs : List Fc, Fc.allOf p fcs = true
  | [] => rfl
  | fc :: fcs => by rw [Fc.allOf, fc.all_of_forall h, Fc.allOf_of_forall h fcs, Bool.and_self]

end

/-! ## Tasks of an agenda -/

def Item.isExtra : Item → Bool
  | .pktMagicNumber _ | .defClkVal _ | .metadataStreamUuid _ => true
  | _ => false

def Task.Ok (p : Fc → Bool) : Task → Prop
  | .skip _ => False
  | .field fc => fc.all p = true
  | .uuidSection uuid => uuid.length < 16
  | .uuidByte _ uuid => uuid.length < 16
  | .item i => i.isExtra = true
  | _ => True

def TasksOk (p : Fc → Bool) (tasks : List Task) : Prop := ∀ task ∈ tasks, task.Ok p

def TasksReady (p : Fc → Bool) : List Task → Prop
  | .skip _ :: rest => TasksOk p rest
  | tasks => TasksOk p tasks

section
variable {p : Fc → Bool}

theorem TasksOk.append {ts ts' : List Task} (h : TasksOk p ts) (h' : TasksOk p ts') :
    TasksOk p (ts ++ ts') := by
  intro task htask
  obtain h₁ | h₂ := List.mem_append.mp htask
  · exact h task h₁
  · exact h' task h₂

theorem TasksOk.cons (h : task.Ok p) (h' : TasksOk p ts) : TasksOk p (task :: ts) := by
  intro task' htask
  obtain rfl | hmem := List.mem_cons.mp htask
  · exact h
  · exact h' task' hmem

theorem TasksOk.nil : TasksOk p [] := by
  intro task h
  cases h

theorem Fc.allOf_mem (h : Fc.allOf p fcs = true) (hmem : fc ∈ fcs) : fc.all p = true := by
  induction fcs with
  | nil => cases hmem
  | cons fc' fcs ih =>
    rw [Fc.allOf, Bool.and_eq_true] at h
    obtain rfl | hmem := List.mem_cons.mp hmem
    · exact h.1
    · exact ih h.2 hmem

theorem TasksOk.fields (h : Fc.allOf p fcs = true) : TasksOk p (fcs.map .field) := by
  intro task htask
  obtain ⟨fc, hmem, rfl⟩ := List.mem_map.mp htask
  exact Fc.allOf_mem h hmem

theorem TasksOk.replicate (h : fc.all p = true) (n : ℕ) :
    TasksOk p (List.replicate n (.field fc)) := by
  intro task htask
  rw [List.eq_of_mem_replicate htask]
  exact h

theorem TasksOk.rawDataTasks (len : ℕ) : TasksOk p (rawDataTasks len) := by
  unfold ItemSeq.rawDataTasks
  split
  · exact .nil
  · exact .cons trivial .nil

theorem TasksOk.uuidTasks {uuid : List UInt8} {more : Task} (h : uuid.length ≤ 16)
    (hmore : uuid.length < 16 → more.Ok p) : TasksOk p (uuidTasks uuid more) := by
  unfold ItemSeq.uuidTasks
  split
  · exact .cons rfl .nil
  · exact .cons (hmore (by omega)) .nil

theorem TasksOk.of_begin {kind : ContainerKind} {info : BeginInfo} (hfc : fc.all p = true)
    (h : fc.begin d = .ok (kind, info, tasks)) :
    TasksOk p tasks := by
  cases fc with
  | scalar sfc => cases h
  | strBlob sfc =>
    cases sfc with
    | nullTerminatedStr encoding =>
      cases h
      exact .cons trivial .nil
    | staticLenBlobWithMetadataStreamUuidRole =>
      cases h
      exact .cons (Nat.zero_lt_succ 15) .nil
    | _ =>
      cases h
      exact .rawDataTasks _
  | staticLenArray align len elemFc | dynLenArray align index elemFc =>
    cases h
    rw [Fc.all, Bool.and_eq_true] at hfc
    exact .replicate hfc.2 _
  | staticLenArrayWithMetadataStreamUuidRole align elemFc =>
    cases h
    exact .cons (Nat.zero_lt_succ 15) .nil
  | struct align members =>
    cases h
    rw [Fc.all, Bool.and_eq_true] at hfc
    exact .fields hfc.2
  | optional sel index fc =>
    cases h
    rw [Fc.all, Bool.and_eq_true] at hfc
    split
    · exact .cons hfc.2 .nil
    · exact .nil
  | variant isSigned ranges index opts =>
    rw [Fc.all, Bool.and_eq_true] at hfc
    simp only [Fc.begin] at h
    split at h
    · cases h
    · split at h
      · cases h
      · rename_i hopt
        cases h
        exact .cons (Fc.allOf_mem hfc.2 (List.mem_of_getElem? hopt)) .nil

theorem TasksOk.rest {rest : List Task} (h : TasksOk p (task :: rest)) :
    TasksOk p rest := fun task' hmem => h task' (List.mem_cons_of_mem task hmem)

theorem TasksReady.of_ok (h : TasksOk p tasks) : TasksReady p tasks := by
  cases tasks with
  | nil => exact h
  | cons task rest =>
    cases task with
    | skip len => exact h.rest
    | _ => exact h

theorem TasksReady.cases {rest : List Task} (h : TasksReady p (task :: rest)) :
    (∃ len, task = .skip len ∧ TasksOk p rest) ∨ TasksOk p (task :: rest) := by
  cases task with
  | skip len => exact .inl ⟨len, rfl, h⟩
  | _ => exact .inr h

theorem handleRoles_isExtra (roles : List UIntFieldRole) (len val : ℕ) (d : Dec) :
    ∀ i ∈ (handleRoles roles len val d).2, i.isExtra = true := by
  unfold handleRoles
  have hnone : ∀ i ∈ (none : Option Item), i.isExtra = true := by simp
  generalize (none : Option Item) = i at hnone
  induction roles generalizing d i with
  | nil => exact hnone
  | cons role roles ih =>
    refine ih _ _ ?_
    cases role with
    | pktMagicNumber | defClkTs => simp [Item.isExtra]
    | _ => exact hnone

def Leaves (p : Fc → Bool) (phase : Phase) : Answer → Prop
  | .continue a | .item _ a => a.phase = phase ∧ TasksOk p a.tasks
  | .again a => a.phase = phase ∧ TasksReady p a.tasks
  | .ended | .failed _ => True

theorem Leaves.gives {r : Answer} (h : Leaves p phase r) :
    r.Gives fun _ a => a.phase = phase ∧ TasksReady p a.tasks := by
  cases r with
  | «continue» a | item _ a => exact ⟨h.1, .of_ok h.2⟩
  | again a => exact h
  | ended | failed => trivial

theorem tryDec_tasks {q : DecM α} {k : α → Dec → Answer} (h : TasksOk p tasks)
    (hk : ∀ a d', q d = .ok a d' → Leaves p phase (k a d')) :
    Leaves p phase (tryDec q tasks phase d k) :=
  tryDec_rule hk (fun _ _ => ⟨rfl, .of_ok h⟩) fun _ => trivial

theorem tryAlign_tasks {k : Dec → Answer} (h : TasksOk p tasks) (hk : ∀ d', Leaves p phase (k d')) :
    Leaves p phase (tryAlign m align tasks phase d k) :=
  tryAlign_rule (fun d' _ _ _ => hk d') (fun _ _ _ _ => ⟨rfl, h⟩) fun _ => trivial

theorem afterUInt_tasks {len : ℕ} {val : ℤ} {i : Item} {rest : List Task} (h : TasksOk p rest) :
    Leaves p phase (afterUInt sfc len val i rest phase d) := by
  refine ⟨rfl, .append (fun task htask => ?_) h⟩
  obtain ⟨i', hi', rfl⟩ := List.mem_map.mp htask
  exact handleRoles_isExtra _ _ _ _ i' (Option.mem_toList.mp hi')

theorem readScalar_tasks {rest : List Task} (h : TasksOk p (.field (.scalar sfc) :: rest)) :
    Leaves p phase (readScalar m sfc rest phase d) := by
  cases sfc with
  | fixedLen kind fc roles indexes =>
    refine tryDec_tasks h fun val d' _ => ?_
    split
    · exact afterUInt_tasks h.rest
    · unfold afterFixedLen
      split
      · split
        · split
          · exact ⟨rfl, h.rest⟩
          · trivial
        · trivial
      · exact ⟨rfl, h.rest⟩
  | varLenInt isSigned roles indexes =>
    refine tryDec_tasks h fun r d' _ => ?_
    cases isSigned with
    | true => exact ⟨rfl, h.rest⟩
    | false => exact afterUInt_tasks h.rest

theorem doTask_tasks {rest : List Task} (h : TasksReady p (task :: rest)) :
    Leaves p phase (doTask m rest phase d task) := by
  obtain ⟨len, rfl, h⟩ | h := h.cases
  · simp only [doTask]
    split
    · exact ⟨rfl, h⟩
    · exact ⟨rfl, h⟩
    · trivial
  have htask : task.Ok p := h task List.mem_cons_self
  cases task with
  | skip len => exact htask.elim
  | field fc =>
    cases fc with
    | scalar sfc => exact tryAlign_tasks h fun d' => readScalar_tasks h
    | _ =>
      refine tryAlign_tasks h fun d' => ?_
      split
      · rename_i hbegin
        exact ⟨rfl, .append (.of_begin htask hbegin) (.cons trivial h.rest)⟩
      · trivial
  | endField kind fc => exact ⟨rfl, h.rest⟩
  | rawData remaining =>
    exact tryDec_tasks h fun bytes d' _ => ⟨rfl, .append (.rawDataTasks _) h.rest⟩
  | substr cu part =>
    refine tryDec_tasks h fun r d' _ => ⟨rfl, .append ?_ h.rest⟩
    split
    · exact .nil
    · exact .cons trivial .nil
  | uuidSection uuid =>
    refine tryDec_tasks h fun bytes d' hread =>
      ⟨rfl, .append (.uuidTasks ?_ fun hlt => hlt) h.rest⟩
    have hle := readRawData_length_le hread
    have hlt : uuid.length < 16 := htask
    rw [List.length_append]
    omega
  | uuidByte fc uuid =>
    refine tryAlign_tasks h fun d' => tryDec_tasks h fun val d'' _ =>
      ⟨rfl, .append (.uuidTasks ?_ fun hlt => hlt) h.rest⟩
    have hlt : uuid.length < 16 := htask
    rw [List.length_append, List.length_singleton]
    omega
  | item i => exact ⟨rfl, h.rest⟩

end

end Babeltrace.ItemSeq
