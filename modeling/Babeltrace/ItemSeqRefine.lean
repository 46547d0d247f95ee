import Babeltrace.ItemSeqReads

/-!
# The iterator follows its agenda

Each state which the iterator may reach stands for an agenda (`Rel`): the stack holds what remains
to be read of each compound field, down to the frame of the current scope. Both give the same reply,
whatever the medium answers (`reply_sim`), and therefore have the same runs.
-/
namespace Babeltrace.ItemSeq
open Machine Program

def Scope.isEventRecord : Scope → Bool
  | .pktHeader | .pktCtx => false
  | _ => true

/-- `er` is the offset which the iterator holds, only meaningful within an event record. -/
def scopeHead (er : ℕ) (scope : Scope) : ℕ := if scope.isEventRecord then er else 0

inductive Frames (er : ℕ) : List Frame → List Task → Phase → Prop
  | scope (scope : Scope) (frames : List Frame) :
      Frames er ({ restoringState := .endReadScope scope, len := 1 } :: frames) []
        (.endScope scope (scopeHead er scope))
  | field {frame : Frame} {frames tasks phase} (kind : ContainerKind) (fc : Fc) (fcs : List Fc)
      (hstate : frame.restoringState = .endReadField kind) (hfc : frame.fc = some fc)
      (hlen : frame.elemIndex + 1 + fcs.length = frame.len)
      (helems : ∀ (j : ℕ) (fc' : Fc), fcs[j]? = some fc' →
        Frame.elemFc { frame with elemIndex := frame.elemIndex + 1 + j } = some fc')
      (hframes : Frames er frames tasks phase) :
      Frames er (frame :: frames) (fcs.map .field ++ .endField kind fc :: tasks) phase

def AtContent (s : Iter) (frame : Frame) (rest : List Task) (phase : Phase) : Prop :=
  ∃ frames kind fc tasks, s.stack = frame :: frames ∧
    frame.restoringState = .endReadField kind ∧ frame.fc = some fc ∧
    rest = .endField kind fc :: tasks ∧
    Frames s.curEventRecordHeadOffsetInCurPkt frames tasks phase

def AtUuid (s : Iter) (index : ℕ) (uuid : List UInt8) : Prop :=
  uuid.length = index ∧ index < 16 ∧
    ∀ i : Fin 16, i < index → uuid[i.val]? = some (s.curMetadataStreamUuid i)

inductive AtTask (s : Iter) : List Task → Phase → Prop
  | field {fc rest phase} (s₀ : Iter)
      (hframes : Frames s.curEventRecordHeadOffsetInCurPkt s₀.stack rest phase)
      (hstate : s.state = (prepareToReadField fc s₀).state)
      (hstack : s.stack = (prepareToReadField fc s₀).stack)
      (hscalar : ∀ sfc, fc = .scalar sfc → s.curScalarFc = some sfc) :
      AtTask s (.field fc :: rest) phase
  | endField {frame frames kind fc rest phase} (hstate : s.state = .endReadField kind)
      (hstack : s.stack = frame :: frames) (hfc : frame.fc = some fc)
      (hframes : Frames s.curEventRecordHeadOffsetInCurPkt frames rest phase) :
      AtTask s (.endField kind fc :: rest) phase
  | rawData {frame remaining rest phase} (hstate : s.state = .readRawData)
      (hlen : frame.elemIndex + remaining = frame.len) (hpos : 0 < remaining)
      (hcontent : AtContent s frame rest phase) : AtTask s (.rawData remaining :: rest) phase
  | substr {frame cu part rest phase} (hstate : s.state = .readSubstrUntilNullCodepoint cu)
      (hpart : s.nullCpFinder cu = part) (hcontent : AtContent s frame rest phase) :
      AtTask s (.substr cu part :: rest) phase
  | uuidSection {frame uuid rest phase}
      (hstate : s.state = .readMetadataStreamUuidBlobFieldSection) (hlen : frame.len = 16)
      (huuid : AtUuid s frame.elemIndex uuid) (hcontent : AtContent s frame rest phase) :
      AtTask s (.uuidSection uuid :: rest) phase
  | uuidByte {frame fc uuid rest phase}
      (hstate : s.state = .readFixedLenMetadataStreamUuidByteUIntFieldBa8)
      (hfc : s.curScalarFc = some (.fixedLen .uInt fc [] []))
      (huuid : AtUuid s frame.elemIndex uuid) (hcontent : AtContent s frame rest phase) :
      AtTask s (.uuidByte fc uuid :: rest) phase
  | pktMagicNumber {rest phase} (hstate : s.state = .setPktMagicNumberItem)
      (hframes : Frames s.curEventRecordHeadOffsetInCurPkt s.stack rest phase) :
      AtTask s (.item (.pktMagicNumber s.pktMagicNumber) :: rest) phase
  | defClkVal {rest phase} (hstate : s.state = .setDefClkValItem)
      (hframes : Frames s.curEventRecordHeadOffsetInCurPkt s.stack rest phase) :
      AtTask s (.item (.defClkVal s.defClkValCycles) :: rest) phase
  | metadataStreamUuid {frame rest phase} (hstate : s.state = .setMetadataStreamUuidItem)
      (hcontent : AtContent s frame rest phase) :
      AtTask s (.item (.metadataStreamUuid s.metadataStreamUuid) :: rest) phase

inductive AtPhase (s : Iter) : Phase → Prop
  | init (h : s.state = .init) : AtPhase s .init
  | tryBeginPkt (h : s.state = .tryBeginReadPkt) : AtPhase s .tryBeginPkt
  | beginPktContent (h : s.state = .beginReadPktContent) : AtPhase s .beginPktContent
  | endPktContent (h : s.state = .endReadPktContent) : AtPhase s .endPktContent
  | skipEndPadding (h : s.state = .skipPadding) (hpost : s.postSkipPaddingState = .endReadPkt) :
      AtPhase s (.skipEndPadding s.remainingLenToSkip)
  | endPkt (h : s.state = .endReadPkt) : AtPhase s .endPkt
  | done (h : s.state = .done) : AtPhase s .done
  | tryBeginScope (scope) (h : s.state = .tryBeginReadScope scope)
      (hstack : s.curScope.isSome → ∃ frames,
        s.stack = { restoringState := .endReadScope scope, len := 1 } :: frames) :
      AtPhase s (.tryBeginScope scope s.curScope
        (scopeHead s.curEventRecordHeadOffsetInCurPkt scope))
  | endScope (scope) (h : s.state = .endReadScope scope) :
      AtPhase s (.endScope scope (scopeHead s.curEventRecordHeadOffsetInCurPkt scope))
  | setDataStreamInfo (h : s.state = .setDataStreamInfoItem) : AtPhase s .setDataStreamInfo
  | setPktInfo (h : s.state = .setPktInfoItem) : AtPhase s .setPktInfo
  | tryBeginEventRecord (h : s.state = .tryBeginReadEventRecord) : AtPhase s .tryBeginEventRecord
  | setEventRecordInfo (h : s.state = .setEventRecordInfoItem) :
      AtPhase s (.setEventRecordInfo s.curEventRecordHeadOffsetInCurPkt)
  | endEventRecord (h : s.state = .endReadEventRecord) :
      AtPhase s (.endEventRecord s.curEventRecordHeadOffsetInCurPkt)

/-- The agenda which a state of the iterator stands for -/
inductive Rel (s : Iter) : Agenda → Prop
  | phase {phase} (h : AtPhase s phase) : Rel s ⟨s.toDec, [], phase⟩
  | task {tasks phase} (h : AtTask s tasks phase) : Rel s ⟨s.toDec, tasks, phase⟩
  | skip {tasks phase} (hstate : s.state = .skipContentPadding)
      (h : AtTask { s with state := s.postSkipPaddingState } tasks phase) :
      Rel s ⟨s.toDec, .skip s.remainingLenToSkip :: tasks, phase⟩

/-! ## The next field -/

theorem prepareToReadField_dec (fc : Fc) (s : Iter) : (prepareToReadField fc s).toDec = s.toDec := by
  cases fc <;> rfl

variable {fc : Fc} {rest tasks : List Task} {phase : Phase} {m : Medium} {kind : ContainerKind}
  {index : ℕ} {i : Item} {frames : List Frame} {uuid : List UInt8} {s : Iter} {tc : TraceCls}

theorem AtTask.of_prepare (h : Frames s.curEventRecordHeadOffsetInCurPkt s.stack rest phase) :
    AtTask (prepareToReadField fc s) (.field fc :: rest) phase := by
  refine .field s ?_ rfl rfl ?_
  · cases fc <;> exact h
  · rintro sfc rfl
    rfl

def nextScalarFc (rest : List Task) (s : Iter) : Option ScalarFc :=
  (nextScalar rest).orElse fun _ => s.curScalarFc

theorem prepareToReadNextField_sim
    (h : Frames s.curEventRecordHeadOffsetInCurPkt s.stack rest phase) :
    ∃ s', prepareToReadNextField s = .ok () s' ∧ Rel s' ⟨s.toDec, rest, phase⟩ ∧
      s'.toDec = s.toDec ∧ s'.curItem = s.curItem ∧ s'.curScalarFc = nextScalarFc rest s := by
  generalize hst : s.stack = stack at h
  cases h with
  | scope scope frames =>
    refine ⟨{ s with
      stack := { restoringState := .endReadScope scope, len := 1, elemIndex := 1 } :: frames
      state := .endReadScope scope }, ?_, .phase (.endScope scope rfl), rfl, rfl, rfl⟩
    simp [prepareToReadNextField, modifyTop, stackTop, restoreState, setState, hst]
  | @field frame frames tasks phase kind fc fcs hstate hfc hlen helems hframes =>
    cases fcs with
    | nil =>
      refine ⟨{ s with
        stack := { frame with elemIndex := frame.elemIndex + 1 } :: frames
        state := .endReadField kind }, ?_, .task (.endField rfl rfl hfc hframes), rfl, rfl, rfl⟩
      simp only [List.length_nil, Nat.add_zero] at hlen
      simp [prepareToReadNextField, modifyTop, stackTop, restoreState, setState, hst, hlen, hstate]
    | cons fc' fcs =>
      have helem := helems 0 fc' rfl
      have hne : ¬ frame.elemIndex + 1 = frame.len := by
        simp only [List.length_cons] at hlen
        omega
      refine ⟨prepareToReadField fc' { s with
        stack := { frame with elemIndex := frame.elemIndex + 1 } :: frames }, ?_, ?_, ?_, ?_, ?_⟩
      · simp only [prepareToReadNextField, modifyTop, stackTop, bind_apply, hst, hne, if_false]
        simp only [Nat.add_zero] at helem
        rw [helem]
        rfl
      · have hrest : Frames s.curEventRecordHeadOffsetInCurPkt
            ({ frame with elemIndex := frame.elemIndex + 1 } :: frames)
            (fcs.map .field ++ .endField kind fc :: tasks) phase := by
          refine .field kind fc fcs hstate hfc ?_ (fun j fc'' hj => ?_) hframes
          · simp only [List.length_cons] at hlen
            show frame.elemIndex + 1 + 1 + fcs.length = frame.len
            omega
          · have := helems (j + 1) fc'' (by simpa using hj)
            rwa [show frame.elemIndex + 1 + (j + 1) = frame.elemIndex + 1 + 1 + j by omega] at this
        have hrel : Rel (prepareToReadField fc' { s with
            stack := { frame with elemIndex := frame.elemIndex + 1 } :: frames }) _ :=
          .task (.of_prepare hrest)
        rwa [prepareToReadField_dec] at hrel
      · exact prepareToReadField_dec _ _
      · cases fc' <;> rfl
      · cases fc' <;> rfl

/-! ## Alignment -/

theorem alignHead_cases (m : Medium) (align : ℕ) (s : Iter) :
    (∃ s', alignHead m align s = .ok () s' ∧ s.toDec.Moved s'.toDec ∧
      s' = { s with
        toDec := s'.toDec
        remainingLenToSkip := s'.remainingLenToSkip
        postSkipPaddingState := s'.postSkipPaddingState } ∧
      ∀ tasks phase k, tryAlign m align tasks phase s.toDec k = k s'.toDec) ∨
    (∃ s', alignHead m align s = .error .tryAgain s' ∧ s'.state = .skipContentPadding ∧
      { s' with state := s'.postSkipPaddingState } = { s with
        toDec := s'.toDec
        remainingLenToSkip := s'.remainingLenToSkip
        postSkipPaddingState := s.state } ∧
      ∀ tasks phase k, tryAlign m align tasks phase s.toDec k =
        .again ⟨s'.toDec, .skip s'.remainingLenToSkip :: tasks, phase⟩) ∨
    (∃ e s', alignHead m align s = .error e s' ∧ e ≠ .tryAgain ∧
      ∀ tasks phase k, tryAlign m align tasks phase s.toDec k = .failed e) := by
  cases ha : alignHead m align s with
  | ok _ s' =>
    obtain ⟨-, hmoved, -, hframe⟩ := alignHead_ok ha
    refine .inl ⟨s', rfl, hmoved, hframe, fun tasks phase k => ?_⟩
    rw [alignHead_apply] at ha
    unfold tryAlign
    split at ha
    · rename_i h0
      cases ha
      rw [if_pos h0]
    · rename_i h0
      rw [if_neg h0]
      split at ha
      · cases ha
      · rename_i hc
        rw [if_neg hc]
        simp only [skipPadding, Iter.startAlign] at ha
        split at ha <;> cases ha
        rename_i hl
        rw [hl]
  | error e s' =>
    rw [alignHead_apply] at ha
    unfold tryAlign
    split at ha
    · cases ha
    · rename_i h0
      split at ha
      · rename_i hc
        cases ha
        exact .inr (.inr ⟨_, _, rfl, by simp, fun _ _ _ => by rw [if_neg h0, if_pos hc]⟩)
      · rename_i hc
        simp only [skipPadding, Iter.startAlign] at ha
        split at ha <;> cases ha
        rename_i d r hl
        cases e with
        | tryAgain =>
          refine .inr (.inl ⟨_, rfl, rfl, rfl, fun tasks phase k => ?_⟩)
          rw [if_neg h0, if_neg hc, hl]
        | error | fault => exact .inr (.inr ⟨_, _, rfl, by simp, fun _ _ _ => by
            rw [if_neg h0, if_neg hc, hl]⟩)

theorem AtTask.frame (h : AtTask s tasks phase) (d : Dec) (r : ℕ) (p : State) (i : Option Item) :
    AtTask { s with
      toDec := d, remainingLenToSkip := r, postSkipPaddingState := p, curItem := i }
      tasks phase := by
  cases h with
  | field s₀ hframes hstate hstack hscalar => exact .field s₀ hframes hstate hstack hscalar
  | endField hstate hstack hfc hframes => exact .endField hstate hstack hfc hframes
  | rawData hstate hlen hpos hcontent => exact .rawData hstate hlen hpos hcontent
  | substr hstate hpart hcontent => exact .substr hstate hpart hcontent
  | uuidSection hstate hlen huuid hcontent => exact .uuidSection hstate hlen huuid hcontent
  | uuidByte hstate hfc huuid hcontent => exact .uuidByte hstate hfc huuid hcontent
  | pktMagicNumber hstate hframes => exact .pktMagicNumber hstate hframes
  | defClkVal hstate hframes => exact .defClkVal hstate hframes
  | metadataStreamUuid hstate hcontent => exact .metadataStreamUuid hstate hcontent

theorem AtPhase.withDec (h : AtPhase s phase) (d : Dec) :
    AtPhase { s with toDec := d } phase := by
  cases h with
  | init h => exact .init h
  | tryBeginPkt h => exact .tryBeginPkt h
  | beginPktContent h => exact .beginPktContent h
  | endPktContent h => exact .endPktContent h
  | skipEndPadding h hpost => exact .skipEndPadding h hpost
  | endPkt h => exact .endPkt h
  | done h => exact .done h
  | tryBeginScope scope h hstack => exact .tryBeginScope scope h hstack
  | endScope scope h => exact .endScope scope h
  | setDataStreamInfo h => exact .setDataStreamInfo h
  | setPktInfo h => exact .setPktInfo h
  | tryBeginEventRecord h => exact .tryBeginEventRecord h
  | setEventRecordInfo h => exact .setEventRecordInfo h
  | endEventRecord h => exact .endEventRecord h

theorem Rel.withDec {a : Agenda} (h : Rel s a) (d : Dec) :
    Rel { s with toDec := d } { a with dec := d } := by
  cases h with
  | phase h => exact .phase (h.withDec d)
  | task h => exact .task (h.frame d _ _ _)
  | skip hstate h => exact .skip hstate (h.frame d _ _ _)

theorem alignHead_sim {align : ℕ} {k : M Reaction} {k' : Dec → Answer} (hat : AtTask s tasks phase)
    (hk : ∀ s', s.toDec.Moved s'.toDec → s' = { s with
        toDec := s'.toDec
        remainingLenToSkip := s'.remainingLenToSkip
        postSkipPaddingState := s'.postSkipPaddingState } →
      Reply.Rel Rel (toReply (k s')) (k' s'.toDec)) :
    Reply.Rel Rel (toReply ((alignHead m align >>= fun _ => k) s))
      (tryAlign m align tasks phase s.toDec k') := by
  simp only [bind_apply]
  obtain ⟨s', ha, hmoved, hframe, htry⟩ | ⟨s', ha, hst, hframe, htry⟩ | ⟨e, s', ha, he, htry⟩ :=
    alignHead_cases m align s
  · rw [ha, htry]
    exact hk s' hmoved hframe
  · rw [ha, htry]
    refine .again (.skip hst ?_)
    rw [hframe]
    exact hat.frame _ _ _ _
  · simp only [ha, htry, toReply_error he]
    exact .failed e

theorem liftDec_sim {α : Type} {p : DecM α} {k : α → M Reaction} {k' : α → Dec → Answer}
    (hagain : ∀ d, Rel { s with toDec := d } ⟨d, tasks, phase⟩)
    (hk : ∀ a d, p s.toDec = .ok a d → Reply.Rel Rel (toReply (k a { s with toDec := d })) (k' a d)) :
    Reply.Rel Rel (toReply ((liftDec p >>= k) s)) (tryDec p tasks phase s.toDec k') := by
  simp only [bind_apply, liftDec, tryDec]
  cases hp : p s.toDec with
  | ok a d => exact hk a d hp
  | error e d =>
    cases e with
    | tryAgain => exact .again (hagain d)
    | error | fault => exact .failed _

/-! ## Begin of compound, string and BLOB fields -/

structure AtBegin (s : Iter) (kind : ContainerKind) (fc : Fc) (rest : List Task) (phase : Phase) :
    Prop where
  task : AtTask s (.field fc :: rest) phase
  stack : ∃ frames, s.stack = { restoringState := .endReadField kind, fc := some fc } :: frames ∧
    Frames s.curEventRecordHeadOffsetInCurPkt frames rest phase

theorem AtBegin.frame (h : AtBegin s kind fc rest phase) (d : Dec) (r : ℕ) (p : State)
    (i : Option Item) :
    AtBegin { s with
      toDec := d, remainingLenToSkip := r, postSkipPaddingState := p, curItem := i }
      kind fc rest phase :=
  ⟨h.task.frame d r p i, h.stack⟩

def NextSim (kind : ContainerKind) (fc : Fc) (rest : List Task) (phase : Phase)
    (tasks : List Task) (next : M Unit) : Prop :=
  ∀ s, AtBegin s kind fc rest phase → ∃ s', next s = .ok () s' ∧ s'.curItem = s.curItem ∧
    Rel s' ⟨s.toDec, tasks ++ .endField kind fc :: rest, phase⟩

theorem beginItem_sim {next : M Unit} (i : Item) (hitem : s.curItem = some i)
    (hat : AtBegin s kind fc rest phase) (hnext : NextSim kind fc rest phase tasks next) :
    Reply.Rel Rel (toReply ((next >>= fun _ => pure .stop) s))
      (.item i ⟨s.toDec, tasks ++ .endField kind fc :: rest, phase⟩) := by
  obtain ⟨s', hn, hi, hrel⟩ := hnext s hat
  simp only [bind_apply, hn, pure_apply, toReply_stop (hi.trans hitem)]
  exact .item _ hrel

theorem handleBeginReadField_sim (info : BeginInfo) {next : M Unit}
    (hat : AtBegin s kind fc rest phase) (hfc : ∀ sfc, fc ≠ .scalar sfc)
    (hstep : handleState tc m s = handleBeginReadField m kind fc info next s)
    (hbegin : ∀ d, s.toDec.Moved d → fc.begin d = .ok (kind, info, tasks))
    (hnext : NextSim kind fc rest phase tasks next) :
    Reply.Rel Rel (reply tc m s) (doTask m rest phase s.toDec (.field fc)) := by
  obtain ⟨answer, hanswer, htask⟩ : ∃ answer : Dec → Answer,
      (∀ d, s.toDec.Moved d → answer d =
        .item (.fieldBegin kind fc info) ⟨d, tasks ++ .endField kind fc :: rest, phase⟩) ∧
      doTask m rest phase s.toDec (.field fc) =
        tryAlign m fc.align (.field fc :: rest) phase s.toDec answer := by
    cases fc with
    | scalar sfc => exact absurd rfl (hfc sfc)
    | _ => exact ⟨_, fun d hd => by rw [hbegin d hd], rfl⟩
  rw [htask, reply, hstep]
  refine alignHead_sim (s := { s with curItem := some (.fieldBegin kind fc info) })
    (hat.task.frame _ _ _ _) fun s' hmoved hframe => ?_
  have hat' : AtBegin s' kind fc rest phase := by
    rw [hframe]
    exact hat.frame _ _ _ _
  rw [hanswer _ hmoved]
  exact beginItem_sim _ (by rw [hframe]) hat' hnext

theorem nextSim_elems (fcs : List Fc) (helems : ∀ (len j : ℕ) (fc' : Fc), fcs[j + 1]? = some fc' →
      Frame.elemFc ⟨.endReadField kind, some fc, j + 1, len⟩ = some fc') :
    NextSim kind fc rest phase (fcs.map .field)
      (beginElems fcs.length (prepareToReadFirstField fcs)) := by
  intro s hat
  obtain ⟨frames, hstack, hframes⟩ := hat.stack
  cases fcs with
  | nil =>
    refine ⟨{ s with state := .endReadField kind }, ?_, rfl, .task (.endField rfl hstack rfl hframes)⟩
    simp [beginElems, restoreState, stackTop, setState, hstack]
  | cons fc' fcs =>
    refine ⟨prepareToReadField fc' { s with
      stack := ⟨.endReadField kind, some fc, 0, fcs.length + 1⟩ :: frames }, ?_, ?_, ?_⟩
    · simp [beginElems, modifyTop, hstack, prepareToReadFirstField]
    · cases fc' <;> rfl
    · have hrest : Frames s.curEventRecordHeadOffsetInCurPkt
          (⟨.endReadField kind, some fc, 0, fcs.length + 1⟩ :: frames)
          (fcs.map .field ++ .endField kind fc :: rest) phase := by
        refine .field kind fc fcs rfl rfl ?_ (fun j fc'' hj => ?_) hframes
        · show 0 + 1 + fcs.length = fcs.length + 1
          omega
        · rw [show 0 + 1 + j = j + 1 by omega]
          exact helems _ _ fc'' (by simpa using hj)
      have hrel : Rel (prepareToReadField fc' { s with
          stack := ⟨.endReadField kind, some fc, 0, fcs.length + 1⟩ :: frames }) _ :=
        .task (.of_prepare hrest)
      rwa [prepareToReadField_dec] at hrel

theorem nextSim_rawData (len : ℕ) : NextSim kind fc rest phase (rawDataTasks len)
      (beginElems len fun s => { s with state := .readRawData }) := by
  intro s hat
  obtain ⟨frames, hstack, hframes⟩ := hat.stack
  by_cases h0 : len = 0
  · refine ⟨{ s with state := .endReadField kind }, ?_, rfl, ?_⟩
    · simp [beginElems, restoreState, stackTop, setState, hstack, h0]
    · simp only [rawDataTasks, h0, if_true]
      exact .task (.endField rfl hstack rfl hframes)
  · refine ⟨{ s with
      stack := ⟨.endReadField kind, some fc, 0, len⟩ :: frames
      state := .readRawData }, ?_, rfl, ?_⟩
    · simp [beginElems, modifyTop, hstack, h0]
    · simp only [rawDataTasks, h0, if_false]
      exact .task (.rawData rfl (Nat.zero_add len) (Nat.pos_of_ne_zero h0)
        ⟨frames, kind, fc, rest, rfl, rfl, rfl, rfl, hframes⟩)

theorem nextSim_substr (cu : CodeUnit) :
    NextSim .nullTerminatedStr fc rest phase [.substr cu []] (modify fun s => { s with
      nullCpFinder := Function.update s.nullCpFinder cu []
      state := .readSubstrUntilNullCodepoint cu }) := by
  intro s hat
  obtain ⟨frames, hstack, hframes⟩ := hat.stack
  refine ⟨_, rfl, rfl, .task (.substr rfl ?_ ⟨frames, _, fc, rest, hstack, rfl, rfl, rfl, hframes⟩)⟩
  simp

theorem nextSim_uuidSection :
    NextSim .staticLenBlob fc rest phase [.uuidSection []]
      (beginElems 16 fun s => { s with state := .readMetadataStreamUuidBlobFieldSection }) := by
  intro s hat
  obtain ⟨frames, hstack, hframes⟩ := hat.stack
  refine ⟨{ s with
    stack := ⟨.endReadField .staticLenBlob, some fc, 0, 16⟩ :: frames
    state := .readMetadataStreamUuidBlobFieldSection }, ?_, rfl, .task (.uuidSection rfl rfl
      ⟨rfl, Nat.zero_lt_succ 15, by simp⟩ ⟨frames, _, fc, rest, rfl, rfl, rfl, rfl, hframes⟩)⟩
  simp [beginElems, modifyTop, hstack]

theorem nextSim_uuidByte {elemFc : FixedLenBitArrayFc} :
    NextSim .staticLenArray fc rest phase [.uuidByte elemFc []] (modify fun s => { s with
      curScalarFc := some (.fixedLen .uInt elemFc [] [])
      state := .readFixedLenMetadataStreamUuidByteUIntFieldBa8 }) := by
  intro s hat
  obtain ⟨frames, hstack, hframes⟩ := hat.stack
  exact ⟨_, rfl, rfl, .task (.uuidByte rfl rfl ⟨rfl, Nat.zero_lt_succ 15, by simp⟩
    ⟨frames, _, fc, rest, hstack, rfl, rfl, rfl, hframes⟩)⟩

theorem alignLen_one (d : Dec) : d.alignLen 1 = 0 := by
  simp [Dec.alignLen, alignUp, safeSub]

theorem nextSim_single (fc' : Fc) :
    NextSim kind fc rest phase [.field fc'] (beginElems 1 (prepareToReadField fc')) := by
  refine nextSim_elems [fc'] fun len j fc'' h => ?_
  cases h

theorem nextSim_empty (first : Iter → Iter) :
    NextSim kind fc rest phase [] (beginElems 0 first) := by
  show NextSim kind fc rest phase [] (beginElems 0 (prepareToReadFirstField []))
  refine nextSim_elems [] fun len j fc'' h => ?_
  cases h

theorem handleBeginReadOptionalField_sim {sel : OptionalSel} {optFc : Fc}
    (hstate : s.state = .beginReadOptionalField sel.kind)
    (hat : AtBegin s sel.kind (.optional sel index optFc) rest phase) :
    Reply.Rel Rel (reply tc m s)
      (doTask m rest phase s.toDec (.field (.optional sel index optFc))) := by
  obtain ⟨frames, hstack, -⟩ := hat.stack
  generalize hsel : sel.eval s.toDec index = r
  obtain ⟨selVal, isEnabled⟩ := r
  let i := Item.fieldBegin sel.kind (.optional sel index optFc) (.optional selVal isEnabled)
  have hhandle : handleState tc m s =
      (beginElems (if isEnabled then 1 else 0) (prepareToReadField optFc) >>=
        fun _ => pure .stop) { s with curItem := some i } := by
    simp only [handleState, hstate, handleBeginReadOptionalField, stackTopFc, bind_apply, hstack,
      get_apply, hsel, updateForUser, modify_apply]
    cases isEnabled <;> simp [beginElems, modifyTop, restoreState, stackTop, setState, i]
  have htask : doTask m rest phase s.toDec (.field (.optional sel index optFc)) = .item i
      ⟨s.toDec, (if isEnabled then [.field optFc] else []) ++
        .endField sel.kind (.optional sel index optFc) :: rest, phase⟩ := by
    simp only [doTask, Fc.align, tryAlign, alignLen_one, if_true, Fc.begin, hsel, i]
  rw [htask, reply, hhandle]
  cases isEnabled with
  | true => exact beginItem_sim i rfl (hat.frame _ _ _ _) (nextSim_single optFc)
  | false => exact beginItem_sim i rfl (hat.frame _ _ _ _) (nextSim_empty _)

theorem handleBeginReadVariantField_sim {isSigned : Bool} {ranges : List Ranges} {opts : List Fc}
    (hstate : s.state = .beginReadVariantField isSigned)
    (hat : AtBegin s (.variantWithIntSel isSigned) (.variant isSigned ranges index opts) rest
      phase) :
    Reply.Rel Rel (reply tc m s)
      (doTask m rest phase s.toDec (.field (.variant isSigned ranges index opts))) := by
  obtain ⟨frames, hstack, -⟩ := hat.stack
  simp only [reply, handleState, hstate, handleBeginReadVariantField, stackTopFc, bind_apply,
    hstack, modifyTop, get_apply]
  simp only [doTask, Fc.align, tryAlign, alignLen_one, if_true, Fc.begin]
  cases hfind : findOptBySelVal ranges (s.savedKeyVal isSigned index) with
  | none => exact .failed _
  | some j =>
    simp only
    cases hopt : opts[j]? with
    | none => exact .failed _
    | some optFc =>
      have hsim := beginItem_sim (s := { s with curItem := some (.fieldBegin
        (.variantWithIntSel isSigned) (.variant isSigned ranges index opts)
        (.variant (s.savedKeyVal isSigned index) j)) }) _ rfl (hat.frame _ _ _ _)
        (nextSim_single optFc)
      simpa [beginElems, modifyTop, hstack, updateForUser, hstate] using hsim

theorem nextSim_replicate {elemFc : Fc} (len : ℕ)
    (helem : ∀ len j, Frame.elemFc ⟨.endReadField kind, some fc, j, len⟩ = some elemFc) :
    NextSim kind fc rest phase (List.replicate len (.field elemFc))
      (beginElems len (prepareToReadField elemFc)) := by
  have hfirst : beginElems len (prepareToReadField elemFc) =
      beginElems (List.replicate len elemFc).length
        (prepareToReadFirstField (List.replicate len elemFc)) := by
    cases len with
    | zero => rfl
    | succ len => simp [List.replicate_succ, prepareToReadFirstField]
  rw [hfirst, ← List.map_replicate]
  refine nextSim_elems _ fun len' j fc' h => ?_
  obtain ⟨-, rfl⟩ : j + 1 < len ∧ elemFc = fc' := by simpa [List.getElem?_replicate] using h
  exact helem _ _

theorem beginField_sim (hfc : ∀ sfc, fc ≠ .scalar sfc) (hat : AtTask s (.field fc :: rest) phase) :
    Reply.Rel Rel (reply tc m s) (doTask m rest phase s.toDec (.field fc)) := by
  have hat' := hat
  obtain ⟨s₀, hframes, hstate, hstack, -⟩ := hat'
  cases fc with
  | scalar sfc => exact absurd rfl (hfc sfc)
  | struct align members =>
    refine handleBeginReadField_sim .none ⟨hat, _, hstack, hframes⟩ hfc ?_ (fun _ _ => rfl)
      (nextSim_elems members fun _ _ _ h => h)
    simp only [handleState, hstate, prepareToReadField, prepareToReadContainerField,
      handleBeginReadStructField, stackTopFc, bind_apply, hstack]
  | staticLenArray align len elemFc =>
    refine handleBeginReadField_sim .none ⟨hat, _, hstack, hframes⟩ hfc ?_ (fun _ _ => rfl)
      (nextSim_replicate len fun _ _ => rfl)
    simp only [handleState, hstate, prepareToReadField, prepareToReadContainerField,
      handleBeginReadStaticLenArrayField, stackTopFc, bind_apply, hstack]
  | staticLenArrayWithMetadataStreamUuidRole align elemFc =>
    refine handleBeginReadField_sim .none ⟨hat, _, hstack, hframes⟩ hfc ?_ (fun _ _ => rfl)
      nextSim_uuidByte
    simp only [handleState, hstate, prepareToReadField, prepareToReadContainerField,
      handleBeginReadStaticLenArrayFieldWithMetadataStreamUuidRole, stackTopFc, bind_apply, hstack]
  | dynLenArray align index elemFc =>
    refine handleBeginReadField_sim (.len (s.savedKeyVals index)) ⟨hat, _, hstack, hframes⟩ hfc ?_
      (fun d hmoved => ?_) (nextSim_replicate (s.savedKeyVals index) fun _ _ => rfl)
    · simp only [handleState, hstate, prepareToReadField, prepareToReadContainerField,
        handleBeginReadDynLenArrayField, stackTopFc, bind_apply, hstack, get_apply]
    · rw [hmoved]
      rfl
  | optional sel index optFc =>
    exact handleBeginReadOptionalField_sim hstate ⟨hat, _, hstack, hframes⟩
  | variant isSigned ranges index opts =>
    exact handleBeginReadVariantField_sim hstate ⟨hat, _, hstack, hframes⟩
  | strBlob sfc =>
    cases sfc with
    | nullTerminatedStr encoding =>
      refine handleBeginReadField_sim .none ⟨hat, _, hstack, hframes⟩ hfc ?_ (fun _ _ => rfl)
        (nextSim_substr encoding.codeUnit)
      simp only [handleState, hstate, prepareToReadField, prepareToReadContainerField,
        StrBlobFc.beginState, handleBeginReadNullTerminatedStrField, stackTopFc, bind_apply,
        hstack, StrBlobFc.kind]
    | staticLenStr _ len | staticLenBlob len =>
      refine handleBeginReadField_sim .none ⟨hat, _, hstack, hframes⟩ hfc ?_ (fun _ _ => rfl)
        (nextSim_rawData len)
      simp only [handleState, hstate, prepareToReadField, prepareToReadContainerField,
        StrBlobFc.beginState, handleBeginReadStaticLenStrField, handleBeginReadStaticLenBlobField,
        stackTopFc, bind_apply, hstack, handleBeginReadStrBlobField, StrBlobFc.kind]
    | dynLenStr _ index | dynLenBlob index =>
      refine handleBeginReadField_sim (.len (8 * s.savedKeyVals index % 2 ^ 64))
        ⟨hat, _, hstack, hframes⟩ hfc ?_ (fun d hmoved => ?_) (nextSim_rawData (s.savedKeyVals index))
      · simp only [handleState, hstate, prepareToReadField, prepareToReadContainerField,
          StrBlobFc.beginState, handleBeginReadDynLenStrField, handleBeginReadDynLenBlobField,
          stackTopFc, bind_apply, hstack, handleBeginReadStrBlobField, StrBlobFc.kind, get_apply]
      · rw [hmoved]
        rfl
    | staticLenBlobWithMetadataStreamUuidRole =>
      refine handleBeginReadField_sim .none ⟨hat, _, hstack, hframes⟩ hfc ?_ (fun _ _ => rfl)
        nextSim_uuidSection
      simp only [handleState, hstate, prepareToReadField, prepareToReadContainerField,
        StrBlobFc.beginState, handleBeginReadStaticLenBlobFieldWithMetadataStreamUuidRole,
        stackTopFc, bind_apply, hstack, handleBeginReadStrBlobField, StrBlobFc.kind]

/-! ## Scalar fields -/

def AtRoleItem (s₀ s : Iter) : Option Item → Prop
  | none => s.state = s₀.state
  | some (.pktMagicNumber val) => s.state = .setPktMagicNumberItem ∧ s.pktMagicNumber = val
  | some (.defClkVal cycles) => s.state = .setDefClkValItem ∧ s.defClkValCycles = cycles
  | _ => False

/-- The iterator `s` did, from `s₀`, what `r` tells. -/
def RolesDone (s₀ s : Iter) (r : Dec × Option Item) : Prop :=
  s = { s₀ with
    toDec := r.1
    state := s.state
    pktMagicNumber := s.pktMagicNumber
    defClkValCycles := s.defClkValCycles } ∧ AtRoleItem s₀ s r.2

theorem foldl_handleRole {s₀ : Iter} {len val : ℕ} (roles : List UIntFieldRole)
    {r : Dec × Option Item} (h : RolesDone s₀ s r) :
    RolesDone s₀ (roles.foldl (handleRole len val) s)
      (roles.foldl (handleRoleItem len val) r) := by
  induction roles generalizing s r with
  | nil => exact h
  | cons role roles ih =>
    obtain ⟨d, i⟩ := r
    obtain ⟨hs, hi⟩ := h
    have hdec : s.toDec = d := by rw [hs]
    refine ih ?_
    cases role with
    | pktMagicNumber =>
      refine ⟨?_, rfl, rfl⟩
      simp only [handleRole, handleRoleItem, handleUIntFieldRole]
      rw [hs]
    | defClkTs =>
      refine ⟨?_, rfl, ?_⟩
      · simp only [handleRole, handleRoleItem, handleUIntFieldRole]
        rw [hs]
      · simp only [handleRole, handleUIntFieldRole, hdec]
    | _ =>
      refine ⟨?_, hi⟩
      simp only [handleRole, handleRoleItem, handleUIntFieldRole]
      rw [hs]

theorem handleRoles_sim (s : Iter) (roles : List UIntFieldRole) (len val : ℕ) :
    RolesDone s (roles.foldl (handleRole len val) s) (handleRoles roles len val s.toDec) :=
  foldl_handleRole roles ⟨rfl, rfl⟩

theorem nextField_sim (hitem : s.curItem = some i)
    (hframes : Frames s.curEventRecordHeadOffsetInCurPkt s.stack rest phase) :
    Reply.Rel Rel (toReply ((prepareToReadNextField >>= fun _ => pure .stop) s))
      (.item i ⟨s.toDec, rest, phase⟩) := by
  obtain ⟨s', hn, hrel, -, hi, -⟩ := prepareToReadNextField_sim hframes
  simp only [bind_apply, hn, pure_apply, toReply_stop (hi.trans hitem)]
  exact .item _ hrel

theorem handleUIntFieldRoles_sim (roles : List UIntFieldRole) (len val : ℕ)
    (hitem : s.curItem = some i)
    (hframes : Frames s.curEventRecordHeadOffsetInCurPkt s.stack rest phase)
    (hmagic : s.state ≠ .setPktMagicNumberItem) (hclk : s.state ≠ .setDefClkValItem) :
    Reply.Rel Rel (toReply ((handleUIntFieldRoles roles len val >>= fun _ => pure .stop) s))
      (.item i ⟨(handleRoles roles len val s.toDec).1,
        (handleRoles roles len val s.toDec).2.toList.map .item ++ rest, phase⟩) := by
  obtain ⟨hs, hat⟩ := handleRoles_sim s roles len val
  generalize handleRoles roles len val s.toDec = r at hs hat
  generalize hs' : roles.foldl (handleRole len val) s = s' at hs hat
  have hdec : s'.toDec = r.1 := by rw [hs]
  have hitem' : s'.curItem = some i := by rw [hs]; exact hitem
  have hframes' : Frames s'.curEventRecordHeadOffsetInCurPkt s'.stack rest phase := by
    rw [hs]
    exact hframes
  have hrun : (handleUIntFieldRoles roles len val >>= fun _ => pure .stop : M Reaction) s =
      if s'.state = s.state then (prepareToReadNextField >>= fun _ => pure .stop : M Reaction) s'
      else .ok .stop s' := by
    simp only [handleUIntFieldRoles, bind_apply, get_apply, modify_apply, hs']
    by_cases hst : s'.state = s.state <;> simp [hst]
  rw [hrun, ← hdec]
  unfold AtRoleItem at hat
  split at hat
  · rename_i hnone
    rw [if_pos hat, hnone]
    exact nextField_sim hitem' hframes'
  · rename_i v hsome
    obtain ⟨hst, rfl⟩ := hat
    rw [if_neg (by rw [hst]; exact hmagic.symm), toReply_stop hitem', hsome]
    exact .item _ (.task (.pktMagicNumber hst hframes'))
  · rename_i v hsome
    obtain ⟨hst, rfl⟩ := hat
    rw [if_neg (by rw [hst]; exact hclk.symm), toReply_stop hitem', hsome]
    exact .item _ (.task (.defClkVal hst hframes'))
  · exact hat.elim

theorem saveKeyVal_nil (val : ℤ) (d : Dec) : saveKeyVal [] val d = d := by
  simp [saveKeyVal]

theorem handleCommonUIntField_sim (sfc : ScalarFc) {withRole saveVal : Bool} (len : ℕ) (val : ℤ)
    (hrole : withRole = true ↔ sfc.roles ≠ [])
    (hsave : saveVal = true ↔ sfc.keyValSavingIndexes ≠ []) (hitem : s.curItem = some i)
    (hframes : Frames s.curEventRecordHeadOffsetInCurPkt s.stack rest phase)
    (hmagic : s.state ≠ .setPktMagicNumberItem) (hclk : s.state ≠ .setDefClkValItem) :
    Reply.Rel Rel (toReply ((handleCommonUIntField sfc withRole saveVal len val.toNat >>=
        fun _ => pure .stop) s))
      (afterUInt sfc len val i rest phase s.toDec) := by
  have hrun : (handleCommonUIntField sfc withRole saveVal len val.toNat >>=
        fun _ => pure .stop : M Reaction) s =
      ((if sfc.roles ≠ [] then handleUIntFieldRoles sfc.roles len val.toNat
        else prepareToReadNextField) >>= fun _ => pure .stop : M Reaction)
        { s with toDec := saveKeyVal sfc.keyValSavingIndexes val.toNat s.toDec } := by
    by_cases hi : sfc.keyValSavingIndexes = []
    · simp [handleCommonUIntField, hrole, hsave, hi, saveKeyVal_nil]
    · simp [handleCommonUIntField, hrole, hsave, hi]
  rw [hrun, afterUInt]
  by_cases hr : sfc.roles = []
  · simp only [hr, ne_eq, not_true_eq_false, if_false, handleRoles, List.foldl_nil]
    exact nextField_sim hitem hframes
  · simp only [ne_eq, hr, not_false_eq_true, if_true]
    exact handleUIntFieldRoles_sim sfc.roles len val.toNat hitem hframes hmagic hclk

theorem saveKeyValAfterNext_apply {sfc : ScalarFc} (kind : FixedLenKind) (val : ℤ)
    (h : s.curScalarFc = some sfc) :
    saveKeyValAfterNext kind val s = match sfc with
      | .fixedLen kind' _ _ indexes =>
        if kind' = kind then .ok () { s with toDec := saveKeyVal indexes val s.toDec }
        else .error .fault s
      | _ => .error .fault s := by
  simp only [saveKeyValAfterNext, getCurScalarFc, bind_apply, h]
  cases sfc with
  | fixedLen kind' fc roles indexes =>
    by_cases hk : kind' = kind
    · simp only [hk, if_true, modify_apply]
      rw [h, hk]
    · simp [hk]
  | varLenInt => simp

theorem afterFixedLenField_sim (kind : FixedLenKind) (fc : FixedLenBitArrayFc)
    (roles : List UIntFieldRole) (indexes : List ℕ) (val : ℤ) (hkind : kind ≠ .uInt)
    (hitem : s.curItem = some i) (hfc : s.curScalarFc = some (.fixedLen kind fc roles indexes))
    (hframes : Frames s.curEventRecordHeadOffsetInCurPkt s.stack rest phase) (withRole : Bool) :
    Reply.Rel Rel (toReply (afterFixedLenField kind (.fixedLen kind fc roles indexes) withRole
        (kind ∈ [.bool, .uInt, .sInt] ∧ indexes ≠ []) fc.len val s))
      (afterFixedLen kind (.fixedLen kind fc roles indexes) val i rest phase s.toDec) := by
  have hmem : kind ∈ [FixedLenKind.bool, .uInt, .sInt] ↔ kind ∈ [FixedLenKind.bool, .sInt] := by
    cases kind <;> simp at hkind ⊢
  obtain ⟨s', hn, hrel, hdec, hi, hnext⟩ := prepareToReadNextField_sim hframes
  simp only [afterFixedLenField, hkind, if_false, bind_apply, hn, afterFixedLen, hmem,
    ScalarFc.keyValSavingIndexes]
  by_cases hsave : kind ∈ [FixedLenKind.bool, .sInt] ∧ indexes ≠ []
  · have hcur : s'.curScalarFc =
        some ((nextScalar rest).getD (.fixedLen kind fc roles indexes)) := by
      rw [hnext, nextScalarFc, hfc]
      cases nextScalar rest <;> rfl
    generalize (nextScalar rest).getD (.fixedLen kind fc roles indexes) = sfc at hcur
    simp only [hsave, ne_eq, not_false_eq_true, and_self, decide_true, if_true, bind_apply,
      saveKeyValAfterNext_apply kind val hcur]
    cases sfc with
    | varLenInt => exact .failed _
    | fixedLen kind' fc' roles' indexes' =>
      by_cases hk : kind' = kind
      · simp only [hk, if_true, pure_apply, ← hdec]
        have hrel' := hrel.withDec (saveKeyVal indexes' val s'.toDec)
        have hitem' : ({ s' with toDec := saveKeyVal indexes' val s'.toDec } : Iter).curItem =
          some i := hi.trans hitem
        rw [toReply_stop hitem']
        exact .item _ hrel'
      · simp only [hk, if_false]
        exact .failed _
  · simp only [hsave, decide_false, Bool.false_eq_true, if_false, pure_apply,
      toReply_stop (hi.trans hitem)]
    exact .item _ hrel

theorem alignedRead_sim {α : Type} {sfc : ScalarFc} {align : ℕ} {p : DecM α} {k : α → M Reaction}
    {k' : α → Dec → Answer} (hat : AtTask s (.field (.scalar sfc) :: rest) phase)
    (hk : ∀ (s' : Iter) a d, s'.curScalarFc = some sfc → s'.state = sfc.readState →
      Frames s'.curEventRecordHeadOffsetInCurPkt s'.stack rest phase →
      Reply.Rel Rel (toReply (k a { s' with toDec := d })) (k' a d)) :
    Reply.Rel Rel (toReply ((alignHead m align >>= fun _ => liftDec p >>= k) s))
      (tryAlign m align (.field (.scalar sfc) :: rest) phase s.toDec fun d =>
        tryDec p (.field (.scalar sfc) :: rest) phase d k') := by
  refine alignHead_sim hat fun s' _ hframe => ?_
  have hat' : ∀ d, AtTask { s' with toDec := d } (.field (.scalar sfc) :: rest) phase := by
    intro d
    rw [hframe]
    exact hat.frame d _ _ _
  refine liftDec_sim (fun d => .task (hat' d)) fun a d _ => ?_
  obtain ⟨s₀, hframes, hstate, hstack, hscalar⟩ := hat' d
  exact hk s' a d (hscalar _ rfl) hstate (hstack ▸ hframes)

variable {roles : List UIntFieldRole} {indexes : List ℕ}

theorem readFixedLenField_sim {kind : FixedLenKind} {fc : FixedLenBitArrayFc}
    (hat : AtTask s (.field (.scalar (.fixedLen kind fc roles indexes)) :: rest) phase) :
    Reply.Rel Rel (reply tc m s)
      (doTask m rest phase s.toDec (.field (.scalar (.fixedLen kind fc roles indexes)))) := by
  obtain ⟨_, _, hstate, _, hscalar⟩ := id hat
  have hcur := hscalar _ rfl
  have hhandle : handleState tc m s = (alignHead m fc.align >>= fun _ =>
      liftDec (readFixedLenInt m (kind = .sInt) fc.readParams fc) >>= fun val =>
      updateForUser (.fixedLenField kind (.fixedLen kind fc roles indexes) val) >>= fun _ =>
      afterFixedLenField kind (.fixedLen kind fc roles indexes) (kind = .uInt ∧ roles ≠ [])
        (kind ∈ [.bool, .uInt, .sInt] ∧ indexes ≠ []) fc.len val) s := by
    rw [show handleState tc m s = handleReadFixedLenField m kind fc.readParams
      (kind = .uInt ∧ roles ≠ []) (kind ∈ [.bool, .uInt, .sInt] ∧ indexes ≠ []) s by
        simp only [handleState, hstate, prepareToReadField, ScalarFc.readState]]
    simp only [handleReadFixedLenField, bind_apply (p := getCurScalarFc), getCurScalarFc, hcur,
      readFixedLenField, bind_assoc, pure_bind]
  rw [reply, hhandle]
  refine alignedRead_sim hat fun s' val d hcur' hstate' hframes' => ?_
  generalize hi : Item.fixedLenField kind (.fixedLen kind fc roles indexes) val = i
  simp only [updateForUser, bind_apply, modify_apply]
  by_cases hkind : kind = .uInt
  · subst hkind
    exact handleCommonUIntField_sim (s := { s' with toDec := d, curItem := some i })
      (.fixedLen .uInt fc roles indexes) fc.len val (by simp [ScalarFc.roles])
      (by simp [ScalarFc.keyValSavingIndexes]) rfl hframes'
      (by simp [hstate', ScalarFc.readState]) (by simp [hstate', ScalarFc.readState])
  · simp only [hkind, if_false]
    exact afterFixedLenField_sim (s := { s' with toDec := d, curItem := some i }) kind fc roles
      indexes val hkind rfl hcur' hframes' _

theorem readVarLenIntField_sim {isSigned : Bool}
    (hat : AtTask s (.field (.scalar (.varLenInt isSigned roles indexes)) :: rest) phase) :
    Reply.Rel Rel (reply tc m s)
      (doTask m rest phase s.toDec (.field (.scalar (.varLenInt isSigned roles indexes)))) := by
  obtain ⟨_, _, hstate, _, hscalar⟩ := id hat
  have hcur := hscalar _ rfl
  have hhandle : handleState tc m s = (alignHead m 8 >>= fun _ =>
      liftDec (fun d => varLenLoop m isSigned (varLenFuel d) d) >>= fun r =>
      updateForUser (.varLenIntField isSigned (.varLenInt isSigned roles indexes) r.1 r.2) >>=
      fun _ => afterVarLenIntField isSigned (.varLenInt isSigned roles indexes)
        (!isSigned ∧ roles ≠ []) (indexes ≠ []) r.1) s := by
    rw [show handleState tc m s = handleReadVarLenIntField m isSigned (!isSigned ∧ roles ≠ [])
      (indexes ≠ []) s by
        simp only [handleState, hstate, prepareToReadField, ScalarFc.readState]]
    simp only [handleReadVarLenIntField, bind_apply (p := getCurScalarFc), getCurScalarFc, hcur]
    rfl
  rw [reply, hhandle]
  refine alignedRead_sim hat fun s' r d _ hstate' hframes' => ?_
  obtain ⟨val, len⟩ := r
  simp only [updateForUser, bind_apply, modify_apply]
  cases isSigned with
  | true =>
    have hsim := nextField_sim (s := { s' with
      toDec := saveKeyVal indexes val d
      curItem := some (.varLenIntField true (.varLenInt true roles indexes) val len) }) rfl hframes'
    by_cases hidx : indexes = []
    · subst hidx
      rw [saveKeyVal_nil] at hsim
      simpa [afterVarLenIntField, saveKeyVal_nil] using hsim
    · simpa [afterVarLenIntField, ScalarFc.keyValSavingIndexes, hidx] using hsim
  | false =>
    exact handleCommonUIntField_sim (s := { s' with
      toDec := d
      curItem := some (.varLenIntField false (.varLenInt false roles indexes) val len) })
      (.varLenInt false roles indexes) d.curVarLenIntLen val (by simp [ScalarFc.roles])
      (by simp [ScalarFc.keyValSavingIndexes]) rfl hframes'
      (by simp [hstate', ScalarFc.readState]) (by simp [hstate', ScalarFc.readState])

/-! ## Other tasks -/

theorem endField_sim {frame : Frame} (hstate : s.state = .endReadField kind)
    (hstack : s.stack = frame :: frames) (hfc : frame.fc = some fc)
    (hframes : Frames s.curEventRecordHeadOffsetInCurPkt frames rest phase) :
    Reply.Rel Rel (reply tc m s) (doTask m rest phase s.toDec (.endField kind fc)) := by
  have hhandle : handleState tc m s = (prepareToReadNextField >>= fun _ => pure .stop : M Reaction)
      { s with curItem := some (.fieldEnd kind fc), stack := frames } := by
    simp only [handleState, hstate, handleEndReadField, bind_apply, stackTopFc, hstack, hfc,
      updateForUser, stackPop, modify_apply, List.tail_cons]
  rw [reply, hhandle]
  exact nextField_sim rfl hframes

theorem readRawDataNoNext_eq {frame : Frame} {k : List UInt8 → M Reaction}
    (hstack : s.stack = frame :: frames) :
    (readRawDataNoNext m >>= k) s =
      (liftDec (readRawData m (frame.len - frame.elemIndex)) >>= fun bytes =>
        updateForUser (.rawData bytes) >>= fun _ =>
        modifyTop (fun top => { top with elemIndex := top.elemIndex + bytes.length }) >>= fun _ =>
        k bytes) s := by
  simp only [readRawDataNoNext, bind_assoc, pure_bind]
  simp only [bind_apply (p := stackTop), stackTop, hstack]

theorem AtContent.endField {frame : Frame} (h : AtContent s frame rest phase)
    (hstack : s.stack = frame :: frames) (index : ℕ) (d : Dec) (i : Option Item)
    (f : CodeUnit → List UInt8) (u : Fin 16 → UInt8) (v : List UInt8) :
    Rel { s with
      toDec := d, curItem := i, stack := { frame with elemIndex := index } :: frames
      nullCpFinder := f, curMetadataStreamUuid := u, metadataStreamUuid := v
      state := frame.restoringState } ⟨d, rest, phase⟩ := by
  obtain ⟨frames', kind, fc, tasks, hst, hres, hfc, rfl, hframes⟩ := h
  cases hstack.symm.trans hst
  exact .task (.endField hres rfl hfc hframes)

theorem AtContent.stack_eq {frame : Frame} (h : AtContent s frame rest phase) :
    ∃ frames, s.stack = frame :: frames := by
  obtain ⟨frames, _, _, _, hst, _⟩ := h
  exact ⟨frames, hst⟩

theorem AtContent.advance {s' : Iter} {frame : Frame} (h : AtContent s frame rest phase)
    (hstack : s.stack = frame :: frames) (index : ℕ)
    (hstack' : s'.stack = { frame with elemIndex := index } :: frames)
    (her : s'.curEventRecordHeadOffsetInCurPkt = s.curEventRecordHeadOffsetInCurPkt) :
    AtContent s' { frame with elemIndex := index } rest phase := by
  obtain ⟨frames', kind, fc, tasks, hst, hres, hfc, hrest, hframes⟩ := h
  cases hstack.symm.trans hst
  exact ⟨frames, kind, fc, tasks, hstack', hres, hfc, hrest, her ▸ hframes⟩

theorem rawData_sim {frame : Frame} {remaining : ℕ} (hstate : s.state = .readRawData)
    (hlen : frame.elemIndex + remaining = frame.len) (hpos : 0 < remaining)
    (hcontent : AtContent s frame rest phase) :
    Reply.Rel Rel (reply tc m s) (doTask m rest phase s.toDec (.rawData remaining)) := by
  obtain ⟨frames, hstack⟩ := hcontent.stack_eq
  have hat : AtTask s (.rawData remaining :: rest) phase := .rawData hstate hlen hpos hcontent
  have hremaining : frame.len - frame.elemIndex = remaining := by omega
  rw [reply, show handleState tc m s = handleReadRawData m s by simp only [handleState, hstate],
    handleReadRawData, readRawDataNoNext_eq hstack, hremaining]
  refine liftDec_sim (fun d => .task (hat.frame d _ _ _)) fun bytes d hread => ?_
  have hle := readRawData_length_le hread
  simp only [updateForUser, bind_apply, modify_apply, modifyTop, hstack, stackTop, rawDataTasks]
  by_cases hend : remaining - bytes.length = 0
  · have hindex : frame.elemIndex + bytes.length = frame.len := by omega
    simp only [hindex, hend, if_true, List.nil_append, restoreState, bind_apply, stackTop,
      setState, modify_apply, pure_apply, toReply]
    exact .item _ (hcontent.endField hstack _ _ _ _ _ _)
  · have hindex : ¬ frame.elemIndex + bytes.length = frame.len := by omega
    simp only [hindex, hend, if_false, pure_apply, toReply]
    refine .item _ (.task (.rawData hstate ?_ (by omega) (hcontent.advance hstack _ rfl rfl)))
    show frame.elemIndex + bytes.length + (remaining - bytes.length) = frame.len
    omega

theorem substr_sim {frame : Frame} {cu : CodeUnit}
    (hstate : s.state = .readSubstrUntilNullCodepoint cu) (hcontent : AtContent s frame rest phase) :
    Reply.Rel Rel (reply tc m s)
      (doTask m rest phase s.toDec (.substr cu (s.nullCpFinder cu))) := by
  obtain ⟨frames, hstack⟩ := hcontent.stack_eq
  have hat : AtTask s (.substr cu (s.nullCpFinder cu) :: rest) phase :=
    .substr hstate rfl hcontent
  rw [reply, show handleState tc m s = handleReadSubstrUntilNullCodepoint m cu s by
    simp only [handleState, hstate], handleReadSubstrUntilNullCodepoint, get_bind_apply]
  refine liftDec_sim (fun d => .task (hat.frame d _ _ _)) fun r d _ => ?_
  obtain ⟨bytes, found, part⟩ := r
  cases found with
  | true =>
    simp only [updateForUser, bind_apply, modify_apply, restoreState, stackTop, hstack, setState,
      if_true, pure_apply, toReply, List.nil_append]
    exact .item _ (hcontent.endField hstack frame.elemIndex _ _ _ _ _)
  | false =>
    simp only [updateForUser, bind_apply, modify_apply, Bool.false_eq_true, if_false, pure_apply,
      toReply]
    refine .item _ (.task (.substr hstate ?_
      (hcontent.advance hstack frame.elemIndex hstack rfl)))
    simp

theorem AtUuid.copy (h : AtUuid s index uuid) (bytes : List UInt8) (i : Fin 16)
    (hi : i < index + bytes.length) :
    (uuid ++ bytes)[i.val]? = some (copyUuidBytes s.curMetadataStreamUuid index bytes i) := by
  obtain ⟨hlen, -, hbytes⟩ := h
  unfold copyUuidBytes
  by_cases hlt : i.val < index
  · rw [List.getElem?_append_left (by omega), hbytes i hlt, if_neg (by omega)]
  · rw [List.getElem?_append_right (by omega), if_pos (by omega), hlen,
      List.getElem?_eq_getElem (by omega)]
    rfl

theorem setUuidBytes_sim {frame : Frame} {more : Task} (bytes : List UInt8)
    (hstack : s.stack = frame :: frames) (hcontent : AtContent s frame rest phase)
    (huuid : AtUuid s frame.elemIndex uuid) (hle : frame.elemIndex + bytes.length ≤ 16)
    (hmore : ∀ s', s'.state = s.state → s'.curScalarFc = s.curScalarFc →
      AtUuid s' (frame.elemIndex + bytes.length) (uuid ++ bytes) →
      AtContent s' { frame with elemIndex := frame.elemIndex + bytes.length } rest phase →
      AtTask s' (more :: rest) phase) :
    Reply.Rel Rel (toReply ((setUuidBytes frame.elemIndex bytes >>= fun _ => pure .stop)
        { s with
          curItem := some i
          stack := { frame with elemIndex := frame.elemIndex + bytes.length } :: frames }))
      (.item i ⟨s.toDec, uuidTasks (uuid ++ bytes) more ++ rest, phase⟩) := by
  have hlen : (uuid ++ bytes).length = frame.elemIndex + bytes.length := by
    rw [List.length_append, huuid.1]
  simp only [setUuidBytes, bind_apply, modify_apply, stackTop, uuidTasks, hlen]
  by_cases h16 : frame.elemIndex + bytes.length = 16
  · have hall : List.ofFn (copyUuidBytes s.curMetadataStreamUuid frame.elemIndex bytes) =
        uuid ++ bytes := by
      refine List.ext_getElem? fun j => ?_
      by_cases hj : j < 16
      · rw [huuid.copy bytes ⟨j, hj⟩ (by simp only; omega)]
        rw [List.getElem?_ofFn, dif_pos hj]
      · rw [List.getElem?_eq_none (by simp; omega), List.getElem?_eq_none (by omega)]
    simp only [h16, if_true, modify_apply, pure_apply, toReply, ← hall]
    exact .item _ (.task (.metadataStreamUuid rfl (hcontent.advance hstack 16 rfl rfl)))
  · simp only [h16, if_false, pure_apply, toReply]
    refine .item _ (.task (hmore _ rfl rfl ⟨hlen, by omega, ?_⟩ (hcontent.advance hstack _ rfl rfl)))
    exact fun j hj => huuid.copy bytes j hj

theorem uuidSection_sim {frame : Frame} (hstate : s.state = .readMetadataStreamUuidBlobFieldSection)
    (hlen : frame.len = 16) (huuid : AtUuid s frame.elemIndex uuid)
    (hcontent : AtContent s frame rest phase) :
    Reply.Rel Rel (reply tc m s) (doTask m rest phase s.toDec (.uuidSection uuid)) := by
  obtain ⟨frames, hstack⟩ := hcontent.stack_eq
  have hat : AtTask s (.uuidSection uuid :: rest) phase := .uuidSection hstate hlen huuid hcontent
  rw [reply, show handleState tc m s = handleReadMetadataStreamUuidBlobFieldSection m s by
    simp only [handleState, hstate], handleReadMetadataStreamUuidBlobFieldSection]
  simp only [bind_apply (p := stackTop), stackTop, hstack]
  rw [readRawDataNoNext_eq hstack, hlen, ← huuid.1]
  refine liftDec_sim (fun d => .task (hat.frame d _ _ _)) fun bytes d hread => ?_
  have hle := readRawData_length_le hread
  have hindex := huuid.1
  simp only [updateForUser, bind_apply (p := modify _), modify_apply,
    bind_apply (p := modifyTop _), modifyTop, hstack]
  rw [hindex]
  have hlt := huuid.2.1
  exact setUuidBytes_sim (s := { s with toDec := d }) bytes hstack hcontent huuid (by omega)
    fun s' hst _ huuid' hcontent' =>
      .uuidSection (hst.trans hstate) (by exact hlen) huuid' hcontent'

theorem uuidByte_sim {frame : Frame} {fc : FixedLenBitArrayFc}
    (hstate : s.state = .readFixedLenMetadataStreamUuidByteUIntFieldBa8)
    (hfc : s.curScalarFc = some (.fixedLen .uInt fc [] [])) (huuid : AtUuid s frame.elemIndex uuid)
    (hcontent : AtContent s frame rest phase) :
    Reply.Rel Rel (reply tc m s) (doTask m rest phase s.toDec (.uuidByte fc uuid)) := by
  obtain ⟨frames, hstack⟩ := hcontent.stack_eq
  have hat : AtTask s (.uuidByte fc uuid :: rest) phase := .uuidByte hstate hfc huuid hcontent
  rw [reply, show handleState tc m s = handleReadFixedLenMetadataStreamUuidByteUIntFieldBa8 m s by
    simp only [handleState, hstate], handleReadFixedLenMetadataStreamUuidByteUIntFieldBa8]
  simp only [bind_apply (p := getCurScalarFc), getCurScalarFc, hfc, readFixedLenField, bind_assoc,
    pure_bind]
  refine alignHead_sim hat fun s' hmoved hframe => ?_
  refine liftDec_sim (fun d => .task ?_) fun val d hread => ?_
  · rw [hframe]
    exact hat.frame d _ _ _
  have hstack' : s'.stack = frame :: frames := by rw [hframe]; exact hstack
  have hcontent' : AtContent { s' with toDec := d } frame rest phase := by
    rw [hframe]
    exact hcontent
  have huuid' : AtUuid { s' with toDec := d } frame.elemIndex uuid := by
    rw [hframe]
    exact huuid
  have hlt := huuid.2.1
  simp only [updateForUser, bind_apply (p := modify _), modify_apply, afterMetadataStreamUuidByte,
    bind_apply (p := stackTop), stackTop, hstack', bind_apply (p := modifyTop _), modifyTop]
  refine setUuidBytes_sim (s := { s' with toDec := d }) [UInt8.ofNat val.toNat] hstack' hcontent'
    huuid' (by simp only [List.length_singleton]; omega) fun s'' hst hscalar huuid'' hcontent'' => ?_
  refine .uuidByte (hst.trans ?_) (hscalar.trans ?_) huuid'' hcontent''
  · rw [hframe]
    exact hstate
  · rw [hframe]
    exact hfc

theorem skip_sim (hstate : s.state = .skipContentPadding)
    (h : AtTask { s with state := s.postSkipPaddingState } tasks phase) :
    Reply.Rel Rel (reply tc m s) (doTask m tasks phase s.toDec (.skip s.remainingLenToSkip)) := by
  rw [reply, show handleState tc m s = (skipPadding m true *> pure .continue : M Reaction) s by
    simp only [handleState, hstate]]
  simp only [seqRight_apply, skipPadding, doTask]
  cases skipLoop m true s.remainingLenToSkip (s.toDec, s.remainingLenToSkip) with
  | ok _ r =>
    obtain ⟨d, n⟩ := r
    exact .continue (.task (h.frame d n _ _))
  | error e r =>
    obtain ⟨d, n⟩ := r
    cases e with
    | tryAgain => exact .again (.skip hstate (h.frame d n _ _))
    | error | fault => exact .failed _

theorem doTask_sim {task : Task} (h : AtTask s (task :: rest) phase) :
    Reply.Rel Rel (reply tc m s) (doTask m rest phase s.toDec task) := by
  cases h with
  | @field fc _ _ s₀ hframes hstate hstack hscalar =>
    have hat : AtTask s (.field fc :: rest) phase := .field s₀ hframes hstate hstack hscalar
    cases fc with
    | scalar sfc =>
      cases sfc with
      | fixedLen => exact readFixedLenField_sim hat
      | varLenInt => exact readVarLenIntField_sim hat
    | _ => exact beginField_sim (by simp) hat
  | endField hstate hstack hfc hframes => exact endField_sim hstate hstack hfc hframes
  | rawData hstate hlen hpos hcontent => exact rawData_sim hstate hlen hpos hcontent
  | substr hstate hpart hcontent =>
    subst hpart
    exact substr_sim hstate hcontent
  | uuidSection hstate hlen huuid hcontent => exact uuidSection_sim hstate hlen huuid hcontent
  | uuidByte hstate hfc huuid hcontent => exact uuidByte_sim hstate hfc huuid hcontent
  | pktMagicNumber hstate hframes | defClkVal hstate hframes =>
    rw [reply, handleState, hstate]
    exact nextField_sim (s := { s with curItem := some _ }) rfl hframes
  | metadataStreamUuid hstate hcontent =>
    obtain ⟨frames, hstack⟩ := hcontent.stack_eq
    simp only [reply, handleState, hstate, handleSetMetadataStreamUuidItem, bind_apply, get_apply,
      updateForUser, modify_apply, restoreState, stackTop, hstack, setState, pure_apply, toReply]
    exact .item _ (hcontent.endField hstack _ _ _ _ _ _)

/-! ## Packets -/

theorem prepareToTryReadScope_sim (scope : Scope) (fc : Option StructFc) (s : Iter) :
    AtPhase (prepareToTryReadScope scope fc s)
      (.tryBeginScope scope fc (scopeHead s.curEventRecordHeadOffsetInCurPkt scope)) := by
  refine .tryBeginScope (s := prepareToTryReadScope scope fc s) scope rfl fun hsome => ⟨s.stack, ?_⟩
  exact if_pos hsome

theorem afterScope_sim (scope : Scope) (s : Iter) :
    (∃ s' phase, afterScope scope s = .ok () s' ∧ s'.toDec = s.toDec ∧ AtPhase s' phase ∧
      Phase.afterScope s.toDec (scopeHead s.curEventRecordHeadOffsetInCurPkt scope) scope =
        some phase ∧ ∀ i, AtPhase { s' with curItem := i } phase) ∨
    (afterScope scope s = .error .fault s ∧
      Phase.afterScope s.toDec (scopeHead s.curEventRecordHeadOffsetInCurPkt scope) scope =
        none) := by
  cases scope with
  | pktHeader =>
    exact .inl ⟨_, _, rfl, rfl, .setDataStreamInfo rfl, rfl, fun _ => .setDataStreamInfo rfl⟩
  | pktCtx => exact .inl ⟨_, _, rfl, rfl, .setPktInfo rfl, rfl, fun _ => .setPktInfo rfl⟩
  | eventRecordHeader =>
    exact .inl ⟨_, _, rfl, rfl, .setEventRecordInfo rfl, rfl, fun _ => .setEventRecordInfo rfl⟩
  | eventRecordPayload =>
    exact .inl ⟨_, _, rfl, rfl, .endEventRecord rfl, rfl, fun _ => .endEventRecord rfl⟩
  | commonEventRecordCtx =>
    simp only [afterScope, get_bind_apply, Phase.afterScope]
    cases s.eventRecordInfo.cls with
    | none => exact .inl ⟨_, _, rfl, rfl, .endEventRecord rfl, rfl, fun _ => .endEventRecord rfl⟩
    | some cls =>
      exact .inl ⟨_, _, rfl, rfl, prepareToTryReadScope_sim _ _ s, rfl,
        fun i => prepareToTryReadScope_sim _ _ { s with curItem := i }⟩
  | specEventRecordCtx =>
    simp only [afterScope, get_bind_apply, Phase.afterScope]
    cases s.eventRecordInfo.cls with
    | none => exact .inr ⟨rfl, rfl⟩
    | some cls =>
      exact .inl ⟨_, _, rfl, rfl, prepareToTryReadScope_sim _ _ s, rfl,
        fun i => prepareToTryReadScope_sim _ _ { s with curItem := i }⟩

theorem tryBeginPkt_sim (h : s.state = .tryBeginReadPkt) :
    Reply.Rel Rel (reply tc m s) (doPhase tc m s.toDec .tryBeginPkt) := by
  let s₁ : Iter := { s with toDec := resetForNewPkt s.toDec, stack := [] }
  have hhandle : handleState tc m s = (liftDec (if s₁.remainingBufLen = 0 then tryHaveData m 1
      else pure true) >>= fun hasData => if hasData then
        updateForUser .pktBegin >>= fun _ => setState .beginReadPktContent >>= fun _ => pure .stop
      else (modify fun s => { s with curItem := none, state := .done }) >>= fun _ =>
        pure .stop) s₁ := by
    rw [handleState, h]
    show tryBeginReadPkt m s₁ = _
    simp only [tryBeginReadPkt, get_bind_apply]
    by_cases h0 : s₁.remainingBufLen = 0
    · simp only [h0, if_true]
    · simp only [h0, if_false]
      rfl
  rw [reply, hhandle]
  refine liftDec_sim (s := s₁) (fun d => .phase (.tryBeginPkt h)) fun hasData d _ => ?_
  cases hasData with
  | true => exact .item _ (.phase (.beginPktContent rfl))
  | false => exact .ended

theorem endPktContent_sim (h : s.state = .endReadPktContent) :
    Reply.Rel Rel (reply tc m s) (doPhase tc m s.toDec .endPktContent) := by
  rw [reply, show handleState tc m s = handleEndReadPktContent m s by
    simp only [handleState, h]]
  simp only [handleEndReadPktContent, updateForUser, bind_apply, modify_apply, get_apply, doPhase]
  by_cases hinf : s.expectedTotalLen = infDataLen
  · simp only [hinf, if_true]
    exact .item _ (.phase (.endPkt rfl))
  · simp only [hinf, if_false]
    by_cases hlen : 0 < safeSub s.expectedTotalLen s.headOffsetInCurPkt
    · simp only [hlen, if_true, bind_apply, modify_apply, skipPadding]
      generalize safeSub s.expectedTotalLen s.headOffsetInCurPkt = len
      cases skipLoop m false len (s.toDec, len) with
      | ok _ r =>
        obtain ⟨d, n⟩ := r
        exact .item _ (.phase (.endPkt rfl))
      | error e r =>
        obtain ⟨d, n⟩ := r
        cases e with
        | tryAgain => exact .again (.phase (.skipEndPadding rfl rfl))
        | error | fault => exact .failed _
    · have h0 : safeSub s.expectedTotalLen s.headOffsetInCurPkt = 0 := by omega
      simp only [h0, skipLoop, if_true, lt_irrefl, if_false]
      exact .item _ (.phase (.endPkt rfl))

theorem skipEndPadding_sim (h : s.state = .skipPadding)
    (hpost : s.postSkipPaddingState = .endReadPkt) :
    Reply.Rel Rel (reply tc m s)
      (doPhase tc m s.toDec (.skipEndPadding s.remainingLenToSkip)) := by
  rw [reply, show handleState tc m s = (skipPadding m false *> pure .continue : M Reaction) s by
    simp only [handleState, h]]
  simp only [seqRight_apply, skipPadding, doPhase]
  cases skipLoop m false s.remainingLenToSkip (s.toDec, s.remainingLenToSkip) with
  | ok _ r =>
    obtain ⟨d, n⟩ := r
    exact .continue (.phase (.endPkt hpost))
  | error e r =>
    obtain ⟨d, n⟩ := r
    cases e with
    | tryAgain => exact .again (.phase (.skipEndPadding h hpost))
    | error | fault => exact .failed _

theorem tryBeginScope_sim (scope : Scope) (h : s.state = .tryBeginReadScope scope)
    (hstack : s.curScope.isSome → ∃ frames,
      s.stack = { restoringState := .endReadScope scope, len := 1 } :: frames) :
    Reply.Rel Rel (reply tc m s) (doPhase tc m s.toDec (.tryBeginScope scope s.curScope
      (scopeHead s.curEventRecordHeadOffsetInCurPkt scope))) := by
  rw [reply, show handleState tc m s = handleTryBeginReadScope scope s by
    simp only [handleState, h]]
  simp only [handleTryBeginReadScope, get_bind_apply]
  cases hscope : s.curScope with
  | none =>
    simp only [bind_apply, doPhase]
    obtain ⟨s', phase, hs, hdec, hphase, hafter, -⟩ | ⟨hs, hafter⟩ := afterScope_sim scope s
    · simp only [hs, hafter]
      rw [← hdec]
      exact .continue (.phase hphase)
    · simp only [hs, hafter]
      exact .failed _
  | some fc =>
    obtain ⟨frames, hframes⟩ := hstack (by rw [hscope]; rfl)
    have hrest : Frames s.curEventRecordHeadOffsetInCurPkt s.stack []
        (.endScope scope (scopeHead s.curEventRecordHeadOffsetInCurPkt scope)) :=
      hframes ▸ .scope scope frames
    exact .item _ (.task (.of_prepare (s := { s with curItem := some (.scopeBegin scope) }) hrest))

theorem endScope_sim (scope : Scope) (h : s.state = .endReadScope scope) :
    Reply.Rel Rel (reply tc m s) (doPhase tc m s.toDec (.endScope scope
      (scopeHead s.curEventRecordHeadOffsetInCurPkt scope))) := by
  rw [reply, show handleState tc m s = handleEndReadScope scope s by simp only [handleState, h]]
  simp only [handleEndReadScope, bind_apply, doPhase]
  obtain ⟨s', phase, hs, hdec, -, hafter, hphase⟩ | ⟨hs, hafter⟩ := afterScope_sim scope s
  · simp only [hs, hafter]
    rw [← hdec]
    exact .item _ (.phase (hphase _))
  · simp only [hs, hafter]
    exact .failed _

theorem doPhase_sim (h : AtPhase s phase) :
    Reply.Rel Rel (reply tc m s) (doPhase tc m s.toDec phase) := by
  have hagain (d : Dec) : Rel { s with toDec := d } ⟨d, [], phase⟩ := .phase (h.withDec d)
  cases h with
  | init h =>
    rw [reply, handleState, h]
    exact .continue (.phase (.tryBeginPkt rfl))
  | tryBeginPkt h => exact tryBeginPkt_sim h
  | beginPktContent h =>
    rw [reply, handleState, h]
    exact .item _ (.phase (prepareToTryReadScope_sim .pktHeader tc.pktHeaderFc
      { s with curItem := some .pktContentBegin }))
  | endPktContent h => exact endPktContent_sim h
  | skipEndPadding h hpost => exact skipEndPadding_sim h hpost
  | endPkt h =>
    rw [reply, handleState, h]
    exact .item _ (.phase (.tryBeginPkt rfl))
  | done h =>
    rw [reply, handleState, h]
    exact .failed _
  | tryBeginScope scope h hstack => exact tryBeginScope_sim scope h hstack
  | endScope scope h => exact endScope_sim scope h
  | setDataStreamInfo h =>
    rw [reply, handleState, h]
    refine liftDec_sim hagain fun _ d _ => ?_
    simp only [updateForUser, bind_apply, get_apply, modify_apply]
    cases d.dataStreamInfo.cls with
    | some cls =>
      exact .item _ (.phase (prepareToTryReadScope_sim .pktCtx cls.pktCtxFc { s with
        toDec := d, curItem := some (.dataStreamInfo d.dataStreamInfo) }))
    | none => exact .item _ (.phase (.setPktInfo rfl))
  | setPktInfo h =>
    rw [reply, handleState, h]
    exact liftDec_sim hagain fun _ d _ => .item _ (.phase (.tryBeginEventRecord rfl))
  | tryBeginEventRecord h =>
    rw [reply, handleState, h]
    refine liftDec_sim hagain fun hasEventRecord d _ => ?_
    cases hasEventRecord with
    | true =>
      simp only [if_true, updateForUser, bind_apply, modify_apply, get_apply]
      cases d.dataStreamInfo.cls with
      | some cls =>
        exact .item _ (.phase (prepareToTryReadScope_sim .eventRecordHeader
          cls.eventRecordHeaderFc { s with
            toDec := d, curItem := some .eventRecordBegin
            curEventRecordHeadOffsetInCurPkt := d.headOffsetInCurPkt }))
      | none => exact .failed _
    | false => exact .continue (.phase (.endPktContent rfl))
  | setEventRecordInfo h =>
    rw [reply, handleState, h]
    exact liftDec_sim hagain fun cls d _ => .item _ (.phase (prepareToTryReadScope_sim
      .commonEventRecordCtx cls.commonEventRecordCtxFc { s with
        toDec := d, curItem := some (.eventRecordInfo d.eventRecordInfo) }))
  | endEventRecord h =>
    rw [reply, handleState, h]
    simp only [handleEndReadEventRecord, get_bind_apply, doPhase]
    by_cases hempty : s.headOffsetInCurPkt = s.curEventRecordHeadOffsetInCurPkt
    · simp only [hempty, if_true]
      exact .failed _
    · simp only [hempty, if_false]
      exact .item _ (.phase (.tryBeginEventRecord rfl))

theorem reply_sim (tc : TraceCls) (m : Medium) {a : Agenda} (h : Rel s a) :
    Reply.Rel Rel (reply tc m s) (a.reply tc m) := by
  cases h with
  | phase h => exact doPhase_sim h
  | @task tasks phase h =>
    cases tasks with
    | nil => cases h
    | cons task rest => exact doTask_sim h
  | skip hstate h => exact skip_sim hstate h

section
variable {tc : TraceCls} {P : Medium → Prop} {s : Iter} {a : Agenda} {items : List Item}

theorem steps_agenda (h : Rel s a) {s' : Iter}
    (hsteps : Steps (reply tc) (fun _ => P) s items s') :
    ∃ a', Steps (Agenda.reply tc) (fun _ => P) a items a' ∧ Rel s' a' := by
  refine Steps.sim ?_ ?_ h hsteps
  · exact fun _ hm => hm
  · exact fun m hst _ => reply_sim tc m hst

theorem runs_agenda (h : Rel s a) {o : Outcome Exc} :
    Runs (reply tc) (fun _ => P) s items o ↔ Runs (Agenda.reply tc) (fun _ => P) a items o := by
  constructor
  · intro hruns
    refine Runs.sim ?_ ?_ h hruns
    · exact fun _ hm => hm
    · exact fun m hst _ => reply_sim tc m hst
  · intro hruns
    refine Runs.sim (R := fun a s => Rel s a) ?_ ?_ h hruns
    · exact fun _ hm => hm
    · exact fun m hst _ => (reply_sim tc m hst).flip

end

end Babeltrace.ItemSeq
