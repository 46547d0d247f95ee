import Babeltrace.ItemSeqData

/-!
# The item sequence iterator

The state machine of `ItemSeqIter`. The states which only differ by template parameters of their
common handler are one constructor, for example `ReadFixedLenUIntFieldBa16LeRevWithRole`.
-/
namespace Babeltrace.ItemSeq
open Bitfield

inductive State
  | init
  | tryBeginReadPkt
  | beginReadPktContent
  | endReadPktContent
  | endReadPkt
  | done
  | skipPadding
  | skipContentPadding
  | setPktMagicNumberItem
  | setMetadataStreamUuidItem
  | setDefClkValItem
  | setDataStreamInfoItem
  | setPktInfoItem
  | setEventRecordInfoItem
  | tryBeginReadScope (scope : Scope)
  | endReadScope (scope : Scope)
  | tryBeginReadEventRecord
  | endReadEventRecord
  | beginReadStructField
  | beginReadStaticLenArrayField
  | beginReadStaticLenArrayFieldWithMetadataStreamUuidRole
  | beginReadDynLenArrayField
  | beginReadNullTerminatedStrField (codeUnit : CodeUnit)
  | beginReadStaticLenStrField
  | beginReadDynLenStrField
  | beginReadStaticLenBlobField
  | beginReadStaticLenBlobFieldWithMetadataStreamUuidRole
  | beginReadDynLenBlobField
  | beginReadOptionalField (kind : ContainerKind)
  | beginReadVariantField (isSigned : Bool)
  | endReadField (kind : ContainerKind)
  | readRawData
  | readMetadataStreamUuidBlobFieldSection
  | readSubstrUntilNullCodepoint (codeUnit : CodeUnit)
  | readFixedLenMetadataStreamUuidByteUIntFieldBa8
  | readFixedLenField (kind : FixedLenKind) (params : ReadParams) (withRole saveVal : Bool)
  | readVarLenIntField (isSigned withRole saveVal : Bool)
  deriving DecidableEq

inductive Reaction
  | continue
  | stop
  deriving DecidableEq, Repr

/-- `_StackFrame` -/
structure Frame where
  restoringState : State
  fc : Option Fc := none
  elemIndex : ℕ := 0
  len : ℕ := 0

/-- `ItemSeqIter`; the top of the stack is the head of the list. -/
structure Iter extends Dec where
  state : State := .init
  postSkipPaddingState : State := .init
  remainingLenToSkip : ℕ := 0
  curItem : Option Item := none
  pktMagicNumber : ℕ := 0
  defClkValCycles : ℕ := 0
  metadataStreamUuid : List UInt8 := []
  curMetadataStreamUuid : Fin 16 → UInt8 := fun _ => 0
  curEventRecordHeadOffsetInCurPkt : ℕ := 0
  nullCpFinder : CodeUnit → List UInt8 := fun _ => []
  curScalarFc : Option ScalarFc := none
  curScope : Option StructFc := none
  stack : List Frame := []

abbrev M := EStateM Exc Iter

def liftDec {α : Type} (p : DecM α) : M α := fun s =>
  match p s.toDec with
  | .ok a d => .ok a { s with toDec := d }
  | .error e d => .error e { s with toDec := d }

def setState (state : State) : M Unit := modify fun s => { s with state }

def updateForUser (item : Item) : M Unit := modify fun s => { s with curItem := some item }

def stackTop : M Frame := fun s =>
  match s.stack with
  | [] => .error .fault s
  | top :: _ => .ok top s

def stackTopFc : M (Option Fc) := fun s =>
  match s.stack with
  | [] => .error .fault s
  | top :: _ => .ok top.fc s

def getCurScalarFc : M (Option ScalarFc) := fun s => .ok s.curScalarFc s

def modifyTop (f : Frame → Frame) : M Unit := fun s =>
  match s.stack with
  | [] => .error .fault s
  | top :: rest => .ok () { s with stack := f top :: rest }

def stackPop : M Unit := modify fun s => { s with stack := s.stack.tail }

def restoreState : M Unit := do
  setState (← stackTop).restoringState

/-! ## Padding -/

/-- `_skipPadding<IsContentDataV>()` -/
def skipPadding (m : Medium) (isContentData : Bool) : M Unit := fun s =>
  match skipLoop m isContentData s.remainingLenToSkip (s.toDec, s.remainingLenToSkip) with
  | .ok () (d, remaining) =>
    .ok () { s with
      toDec := d, remainingLenToSkip := remaining, state := s.postSkipPaddingState }
  | .error e (d, remaining) =>
    .error e { s with toDec := d, remainingLenToSkip := remaining }

def alignHead (m : Medium) (align : ℕ) : M Unit := do
  let s ← get
  let lenToSkip := s.alignLen align
  if lenToSkip ≠ 0 then
    if s.remainingPktContentLen < lenToSkip then
      liftDec (failWith (.contentRequired lenToSkip s.remainingPktContentLen))
    modify fun s => { s with
      remainingLenToSkip := lenToSkip
      postSkipPaddingState := s.state
      state := .skipContentPadding }
    skipPadding m true

/-! ## Preparation of the next field -/

def ScalarFc.readState : ScalarFc → State
  | .fixedLen kind fc roles indexes =>
    .readFixedLenField kind fc.readParams (kind = .uInt ∧ roles ≠ [])
      (kind ∈ [.bool, .uInt, .sInt] ∧ indexes ≠ [])
  | .varLenInt isSigned roles indexes =>
    .readVarLenIntField isSigned (!isSigned ∧ roles ≠ []) (indexes ≠ [])

def StrBlobFc.kind : StrBlobFc → ContainerKind
  | .nullTerminatedStr _ => .nullTerminatedStr
  | .staticLenStr _ _ => .staticLenStr
  | .dynLenStr _ _ => .dynLenStr
  | .staticLenBlob _ => .staticLenBlob
  | .staticLenBlobWithMetadataStreamUuidRole => .staticLenBlob
  | .dynLenBlob _ => .dynLenBlob

def StrBlobFc.beginState : StrBlobFc → State
  | .nullTerminatedStr encoding => .beginReadNullTerminatedStrField encoding.codeUnit
  | .staticLenStr _ _ => .beginReadStaticLenStrField
  | .dynLenStr _ _ => .beginReadDynLenStrField
  | .staticLenBlob _ => .beginReadStaticLenBlobField
  | .staticLenBlobWithMetadataStreamUuidRole =>
    .beginReadStaticLenBlobFieldWithMetadataStreamUuidRole
  | .dynLenBlob _ => .beginReadDynLenBlobField

def OptionalSel.kind : OptionalSel → ContainerKind
  | .bool => .optionalWithBoolSel
  | .int isSigned _ => .optionalWithIntSel isSigned

def prepareToReadContainerField (state : State) (kind : ContainerKind) (fc : Fc) (s : Iter) :
    Iter :=
  { s with stack := { restoringState := .endReadField kind, fc := some fc } :: s.stack, state }

def prepareToReadField (fc : Fc) (s : Iter) : Iter :=
  match fc with
  | .scalar sfc => { s with curScalarFc := some sfc, state := sfc.readState }
  | .strBlob sfc => prepareToReadContainerField sfc.beginState sfc.kind fc s
  | .staticLenArray _ _ _ =>
    prepareToReadContainerField .beginReadStaticLenArrayField .staticLenArray fc s
  | .staticLenArrayWithMetadataStreamUuidRole _ _ =>
    prepareToReadContainerField .beginReadStaticLenArrayFieldWithMetadataStreamUuidRole
      .staticLenArray fc s
  | .dynLenArray _ _ _ =>
    prepareToReadContainerField .beginReadDynLenArrayField .dynLenArray fc s
  | .struct _ _ => prepareToReadContainerField .beginReadStructField .struct fc s
  | .optional sel _ _ =>
    prepareToReadContainerField (.beginReadOptionalField sel.kind) sel.kind fc s
  | .variant isSigned _ _ _ =>
    prepareToReadContainerField (.beginReadVariantField isSigned) (.variantWithIntSel isSigned)
      fc s

def Frame.elemFc (top : Frame) : Option Fc :=
  match top.fc with
  | some (.struct _ members) => members[top.elemIndex]?
  | some (.staticLenArray _ _ elemFc) => some elemFc
  | some (.dynLenArray _ _ elemFc) => some elemFc
  | _ => none

def prepareToReadNextField : M Unit := do
  modifyTop fun top => { top with elemIndex := top.elemIndex + 1 }
  let top ← stackTop
  if top.elemIndex = top.len then
    -- The handler of the restored state pops the frame.
    restoreState
  else
    match top.elemFc with
    | some fc => modify (prepareToReadField fc)
    | none => throw .fault

def prepareToTryReadScope (scope : Scope) (fc : Option StructFc) (s : Iter) : Iter :=
  { s with
    state := .tryBeginReadScope scope
    curScope := fc
    stack := if fc.isSome then { restoringState := .endReadScope scope, len := 1 } :: s.stack
      else s.stack }

/-! ## Packets and scopes -/

/-- `_handleTryBeginReadPktState()` once the packet is reset -/
def tryBeginReadPkt (m : Medium) : M Reaction := do
  let s ← get
  let hasData ← if s.remainingBufLen = 0 then liftDec (tryHaveData m 1) else pure true
  if hasData then
    updateForUser .pktBegin
    setState .beginReadPktContent
  else
    modify fun s => { s with curItem := none, state := .done }
  pure .stop

def handleTryBeginReadPkt (m : Medium) : M Reaction := do
  modify fun s => { s with toDec := resetForNewPkt s.toDec, stack := [] }
  tryBeginReadPkt m

def handleBeginReadPktContent (tc : TraceCls) : M Reaction := do
  updateForUser .pktContentBegin
  modify (prepareToTryReadScope .pktHeader tc.pktHeaderFc)
  pure .stop

def handleEndReadPktContent (m : Medium) : M Reaction := do
  updateForUser .pktContentEnd
  let s ← get
  if s.expectedTotalLen = infDataLen then
    setState .endReadPkt
  else
    let lenToSkip := safeSub s.expectedTotalLen s.headOffsetInCurPkt
    if 0 < lenToSkip then
      modify fun s => { s with
        remainingLenToSkip := lenToSkip
        postSkipPaddingState := .endReadPkt
        state := .skipPadding }
      skipPadding m false
    else
      setState .endReadPkt
  pure .stop

def handleEndReadPkt : M Reaction := do
  updateForUser .pktEnd
  modify fun s => { s with toDec := endReadPkt s.toDec, state := .tryBeginReadPkt }
  pure .stop

/-- `_handleCommonAfterCommonEventRecordCtxScopeState()` and
`_handleCommonAfterSpecEventRecordCtxScopeState()`, and the state which follows the other scopes -/
def afterScope (scope : Scope) : M Unit := do
  match scope with
  | .pktHeader => setState .setDataStreamInfoItem
  | .pktCtx => setState .setPktInfoItem
  | .eventRecordHeader => setState .setEventRecordInfoItem
  | .commonEventRecordCtx =>
    match (← get).eventRecordInfo.cls with
    | some cls => modify (prepareToTryReadScope .specEventRecordCtx cls.specCtxFc)
    | none => setState .endReadEventRecord
  | .specEventRecordCtx =>
    match (← get).eventRecordInfo.cls with
    | some cls => modify (prepareToTryReadScope .eventRecordPayload cls.payloadFc)
    | none => throw .fault
  | .eventRecordPayload => setState .endReadEventRecord

def handleTryBeginReadScope (scope : Scope) : M Reaction := do
  match (← get).curScope with
  | none =>
    afterScope scope
    pure .continue
  | some fc =>
    updateForUser (.scopeBegin scope)
    modify (prepareToReadField fc.toFc)
    pure .stop

def handleEndReadScope (scope : Scope) : M Reaction := do
  afterScope scope
  updateForUser (.scopeEnd scope)
  pure .stop

def handleSetDataStreamInfoItem (tc : TraceCls) : M Reaction := do
  liftDec (setDataStreamInfo tc)
  let s ← get
  updateForUser (.dataStreamInfo s.dataStreamInfo)
  match s.dataStreamInfo.cls with
  | some cls => modify (prepareToTryReadScope .pktCtx cls.pktCtxFc)
  | none => setState .setPktInfoItem
  pure .stop

def handleSetPktInfoItem : M Reaction := do
  liftDec setPktInfo
  updateForUser (.pktInfo (← get).pktInfo)
  setState .tryBeginReadEventRecord
  pure .stop

def handleSetEventRecordInfoItem : M Reaction := do
  let cls ← liftDec setEventRecordInfo
  updateForUser (.eventRecordInfo (← get).eventRecordInfo)
  modify (prepareToTryReadScope .commonEventRecordCtx cls.commonEventRecordCtxFc)
  pure .stop

def hasEventRecord (m : Medium) : DecM Bool := do
  let d ← get
  if d.expectedContentLen = infDataLen then
    if d.remainingBufLen = 0 then tryHaveData m 1 else pure true
  else
    pure (d.remainingPktContentLen ≠ 0)

def handleTryBeginReadEventRecord (m : Medium) : M Reaction := do
  if ← liftDec (hasEventRecord m) then
    updateForUser .eventRecordBegin
    modify fun s => { s with curEventRecordHeadOffsetInCurPkt := s.headOffsetInCurPkt }
    match (← get).dataStreamInfo.cls with
    | some cls => modify (prepareToTryReadScope .eventRecordHeader cls.eventRecordHeaderFc)
    | none => throw .fault
    pure .stop
  else
    setState .endReadPktContent
    pure .continue

def handleEndReadEventRecord : M Reaction := do
  let s ← get
  if s.headOffsetInCurPkt = s.curEventRecordHeadOffsetInCurPkt then
    liftDec (failWith .emptyEventRecord)
  updateForUser .eventRecordEnd
  setState .tryBeginReadEventRecord
  pure .stop

/-! ## Compound, string and BLOB fields -/

/-- The item, the alignment of the head, and then `next` -/
def handleBeginReadField (m : Medium) (kind : ContainerKind) (fc : Fc) (info : BeginInfo)
    (next : M Unit) : M Reaction := do
  updateForUser (.fieldBegin kind fc info)
  alignHead m fc.align
  next
  pure .stop

def beginElems (len : ℕ) (next : Iter → Iter) : M Unit := do
  if len = 0 then
    restoreState
  else
    modifyTop fun top => { top with len }
    modify next

def prepareToReadFirstField : List Fc → Iter → Iter
  | [] => id
  | fc :: _ => prepareToReadField fc

def handleBeginReadStructField (m : Medium) : M Reaction := do
  match ← stackTopFc with
  | some (.struct align members) =>
    handleBeginReadField m .struct (.struct align members) .none
      (beginElems members.length (prepareToReadFirstField members))
  | _ => throw .fault

def handleBeginReadStaticLenArrayField (m : Medium) : M Reaction := do
  match ← stackTopFc with
  | some (.staticLenArray align len elemFc) =>
    handleBeginReadField m .staticLenArray (.staticLenArray align len elemFc) .none
      (beginElems len (prepareToReadField elemFc))
  | _ => throw .fault

def handleBeginReadStaticLenArrayFieldWithMetadataStreamUuidRole (m : Medium) :
    M Reaction := do
  match ← stackTopFc with
  | some (.staticLenArrayWithMetadataStreamUuidRole align elemFc) =>
    handleBeginReadField m .staticLenArray
      (.staticLenArrayWithMetadataStreamUuidRole align elemFc) .none
      (modify fun s => { s with
        curScalarFc := some (.fixedLen .uInt elemFc [] [])
        state := .readFixedLenMetadataStreamUuidByteUIntFieldBa8 })
  | _ => throw .fault

def handleBeginReadDynLenArrayField (m : Medium) : M Reaction := do
  match ← stackTopFc with
  | some (.dynLenArray align index elemFc) =>
    let len := (← get).savedKeyVals index
    handleBeginReadField m .dynLenArray (.dynLenArray align index elemFc) (.len len)
      (beginElems len (prepareToReadField elemFc))
  | _ => throw .fault

/-- `_handleCommonBeginReadNullTerminatedStrFieldState()` -/
def handleBeginReadNullTerminatedStrField (m : Medium) (cu : CodeUnit) : M Reaction := do
  match ← stackTopFc with
  | some fc =>
    handleBeginReadField m .nullTerminatedStr fc .none
      (modify fun s => { s with
        nullCpFinder := Function.update s.nullCpFinder cu []
        state := .readSubstrUntilNullCodepoint cu })
  | none => throw .fault

/-- `_handleCommonBeginReadStrBlobFieldState()` -/
def handleBeginReadStrBlobField (m : Medium) (kind : ContainerKind) (fc : Fc) (info : BeginInfo)
    (len : ℕ) (contentState : State) : M Reaction :=
  handleBeginReadField m kind fc info (beginElems len fun s => { s with state := contentState })

def handleBeginReadStaticLenStrField (m : Medium) : M Reaction := do
  match ← stackTopFc with
  | some (.strBlob (.staticLenStr encoding len)) =>
    handleBeginReadStrBlobField m .staticLenStr (.strBlob (.staticLenStr encoding len)) .none len
      .readRawData
  | _ => throw .fault

def handleBeginReadDynLenStrField (m : Medium) : M Reaction := do
  match ← stackTopFc with
  | some (.strBlob (.dynLenStr encoding index)) =>
    let len := (← get).savedKeyVals index
    handleBeginReadStrBlobField m .dynLenStr (.strBlob (.dynLenStr encoding index))
      (.len (8 * len % 2 ^ 64)) len .readRawData
  | _ => throw .fault

def handleBeginReadStaticLenBlobField (m : Medium) : M Reaction := do
  match ← stackTopFc with
  | some (.strBlob (.staticLenBlob len)) =>
    handleBeginReadStrBlobField m .staticLenBlob (.strBlob (.staticLenBlob len)) .none len
      .readRawData
  | _ => throw .fault

def handleBeginReadStaticLenBlobFieldWithMetadataStreamUuidRole (m : Medium) :
    M Reaction := do
  match ← stackTopFc with
  | some (.strBlob .staticLenBlobWithMetadataStreamUuidRole) =>
    handleBeginReadStrBlobField m .staticLenBlob
      (.strBlob .staticLenBlobWithMetadataStreamUuidRole) .none 16
      .readMetadataStreamUuidBlobFieldSection
  | _ => throw .fault

def handleBeginReadDynLenBlobField (m : Medium) : M Reaction := do
  match ← stackTopFc with
  | some (.strBlob (.dynLenBlob index)) =>
    let len := (← get).savedKeyVals index
    handleBeginReadStrBlobField m .dynLenBlob (.strBlob (.dynLenBlob index))
      (.len (8 * len % 2 ^ 64)) len .readRawData
  | _ => throw .fault

/-- `_handleCommonBeginReadVariantField()` -/
def handleBeginReadVariantField (isSigned : Bool) : M Reaction := do
  match ← stackTopFc with
  | some (.variant isSigned' ranges index opts) =>
    modifyTop fun top => { top with len := 1 }
    let s ← get
    let selVal := s.savedKeyVal isSigned index
    match findOptBySelVal ranges selVal with
    | none => liftDec (failWith (.noVariantOpt selVal))
    | some i =>
      match opts[i]? with
      | none => throw .fault
      | some optFc =>
        updateForUser (.fieldBegin (.variantWithIntSel isSigned)
          (.variant isSigned' ranges index opts) (.variant selVal i))
        modify (prepareToReadField optFc)
        pure .stop
  | _ => throw .fault

def OptionalSel.eval (sel : OptionalSel) (d : Dec) (index : ℕ) : ℤ × Bool :=
  match sel with
  | .bool => if d.savedKeyVals index = 0 then (0, false) else (1, true)
  | .int isSigned ranges =>
    (d.savedKeyVal isSigned index, ranges.contains (d.savedKeyVal isSigned index))

/-- `_handleCommonBeginReadOptionalField()` -/
def handleBeginReadOptionalField (kind : ContainerKind) : M Reaction := do
  match ← stackTopFc with
  | some (.optional sel index optFc) =>
    let (selVal, isEnabled) := sel.eval (← get).toDec index
    updateForUser (.fieldBegin kind (.optional sel index optFc) (.optional selVal isEnabled))
    if isEnabled then
      modifyTop fun top => { top with len := 1 }
      modify (prepareToReadField optFc)
    else
      restoreState
    pure .stop
  | _ => throw .fault

/-- `_handleCommonEndReadCompoundFieldState()` -/
def handleEndReadField (kind : ContainerKind) : M Reaction := do
  match ← stackTopFc with
  | some fc =>
    updateForUser (.fieldEnd kind fc)
    stackPop
    prepareToReadNextField
    pure .stop
  | none => throw .fault

/-- `_handleCommonReadRawDataNoNextState()` -/
def readRawDataNoNext (m : Medium) : M (List UInt8) := do
  let top ← stackTop
  let bytes ← liftDec (readRawData m (top.len - top.elemIndex))
  updateForUser (.rawData bytes)
  modifyTop fun top => { top with elemIndex := top.elemIndex + bytes.length }
  pure bytes

def handleReadRawData (m : Medium) : M Reaction := do
  let _ ← readRawDataNoNext m
  let top ← stackTop
  if top.elemIndex = top.len then
    restoreState
  pure .stop

/-- Copies bytes to `_mCurMetadataStreamUuid` from some index. -/
def copyUuidBytes (uuid : Fin 16 → UInt8) (index : ℕ) (bytes : List UInt8) : Fin 16 → UInt8 :=
  fun i => if index ≤ i then bytes[i - index]?.getD (uuid i) else uuid i

def setUuidBytes (index : ℕ) (bytes : List UInt8) : M Unit := do
  modify fun s => { s with
    curMetadataStreamUuid := copyUuidBytes s.curMetadataStreamUuid index bytes }
  if (← stackTop).elemIndex = 16 then
    modify fun s => { s with
      metadataStreamUuid := List.ofFn s.curMetadataStreamUuid
      state := .setMetadataStreamUuidItem }

def handleReadMetadataStreamUuidBlobFieldSection (m : Medium) : M Reaction := do
  let index := (← stackTop).elemIndex
  let bytes ← readRawDataNoNext m
  setUuidBytes index bytes
  pure .stop

def handleReadSubstrUntilNullCodepoint (m : Medium) (cu : CodeUnit) : M Reaction := do
  let s ← get
  let (bytes, found, part) ← liftDec (readSubstr m cu (s.nullCpFinder cu))
  modify fun s => { s with nullCpFinder := Function.update s.nullCpFinder cu part }
  updateForUser (.rawData bytes)
  if found then
    restoreState
  pure .stop

/-! ## Scalar fields -/

/-- `_handleUIntFieldRole()` -/
def handleRole (len val : ℕ) (s : Iter) (role : UIntFieldRole) : Iter :=
  let s := { s with toDec := handleUIntFieldRole role len val s.toDec }
  match role with
  | .pktMagicNumber => { s with pktMagicNumber := val, state := .setPktMagicNumberItem }
  | .defClkTs => { s with defClkValCycles := s.defClkVal, state := .setDefClkValItem }
  | _ => s

/-- A part of `_handleCommonUIntFieldState()`: the next field is prepared unless a role has its own
item. -/
def handleUIntFieldRoles (roles : List UIntFieldRole) (len val : ℕ) : M Unit := do
  let prevState := (← get).state
  modify fun s => roles.foldl (handleRole len val) s
  if (← get).state = prevState then
    prepareToReadNextField

/-- `_handleCommonUIntFieldState()` -/
def handleCommonUIntField (fc : ScalarFc) (withRole saveVal : Bool) (len val : ℕ) : M Unit := do
  if saveVal then
    modify fun s => { s with toDec := saveKeyVal fc.keyValSavingIndexes val s.toDec }
  if withRole then
    handleUIntFieldRoles fc.roles len val
  else
    prepareToReadNextField

/-- It follows the preparation of the next field: the class which it gets the indexes from is
possibly the one of the next field, which it takes as being of the same kind. -/
def saveKeyValAfterNext (kind : FixedLenKind) (val : ℤ) : M Unit := do
  match ← getCurScalarFc with
  | some (.fixedLen kind' _ _ indexes) =>
    if kind' = kind then
      modify fun s => { s with toDec := saveKeyVal indexes val s.toDec }
    else
      throw .fault
  | _ => throw .fault

/-- `_handleCommonReadFixedLenIntFieldState()` -/
def readFixedLenField (m : Medium) (kind : FixedLenKind) (p : ReadParams) (sfc : ScalarFc)
    (fc : FixedLenBitArrayFc) : M ℤ := do
  alignHead m fc.align
  let val ← liftDec (readFixedLenInt m (kind = .sInt) p fc)
  updateForUser (.fixedLenField kind sfc val)
  pure val

def afterFixedLenField (kind : FixedLenKind) (sfc : ScalarFc) (withRole saveVal : Bool) (len : ℕ)
    (val : ℤ) : M Reaction := do
  if kind = .uInt then
    handleCommonUIntField sfc withRole saveVal len val.toNat
  else
    prepareToReadNextField
    if saveVal then
      saveKeyValAfterNext kind val
  pure .stop

/-- The common handlers of the `ReadFixedLen*Field*` states -/
def handleReadFixedLenField (m : Medium) (kind : FixedLenKind) (p : ReadParams)
    (withRole saveVal : Bool) : M Reaction := do
  match ← getCurScalarFc with
  | some (.fixedLen kind' fc roles indexes) =>
    let sfc := ScalarFc.fixedLen kind' fc roles indexes
    let val ← readFixedLenField m kind p sfc fc
    afterFixedLenField kind sfc withRole saveVal fc.len val
  | _ => throw .fault

/-- The length which a role gets is the one of the current integer, already reset. -/
def afterVarLenIntField (isSigned : Bool) (sfc : ScalarFc) (withRole saveVal : Bool) (val : ℤ) :
    M Reaction := do
  if isSigned then
    if saveVal then
      modify fun s => { s with toDec := saveKeyVal sfc.keyValSavingIndexes val s.toDec }
    prepareToReadNextField
  else
    handleCommonUIntField sfc withRole saveVal (← get).curVarLenIntLen val.toNat
  pure .stop

/-- The common handlers of the `ReadVarLen*IntField*` states -/
def handleReadVarLenIntField (m : Medium) (isSigned withRole saveVal : Bool) : M Reaction := do
  match ← getCurScalarFc with
  | some (.varLenInt isSigned' roles indexes) =>
    let sfc := ScalarFc.varLenInt isSigned' roles indexes
    alignHead m sfc.align
    let (val, len) ← liftDec fun d => varLenLoop m isSigned (varLenFuel d) d
    updateForUser (.varLenIntField isSigned sfc val len)
    afterVarLenIntField isSigned sfc withRole saveVal val
  | _ => throw .fault

def afterMetadataStreamUuidByte (val : ℤ) : M Reaction := do
  let index := (← stackTop).elemIndex
  modifyTop fun top => { top with elemIndex := top.elemIndex + 1 }
  setUuidBytes index [UInt8.ofNat val.toNat]
  pure .stop

def handleReadFixedLenMetadataStreamUuidByteUIntFieldBa8 (m : Medium) : M Reaction := do
  match ← getCurScalarFc with
  | some (.fixedLen kind fc roles indexes) =>
    let val ← readFixedLenField m .uInt { lenBits := 8, byteOrder := .big, isRev := false }
      (.fixedLen kind fc roles indexes) fc
    afterMetadataStreamUuidByte val
  | _ => throw .fault

/-- `_handleSetPktMagicNumberItem()` and `_handleSetDefClkValItem()` -/
def handleSetItem (item : Iter → Item) : M Reaction := do
  updateForUser (item (← get))
  prepareToReadNextField
  pure .stop

def handleSetMetadataStreamUuidItem : M Reaction := do
  updateForUser (.metadataStreamUuid (← get).metadataStreamUuid)
  restoreState
  pure .stop

/-! ## The state machine -/

def handleState (tc : TraceCls) (m : Medium) : M Reaction := fun s =>
  match s.state with
  | .init => (setState .tryBeginReadPkt *> pure .continue : M Reaction) s
  | .tryBeginReadPkt => handleTryBeginReadPkt m s
  | .beginReadPktContent => handleBeginReadPktContent tc s
  | .endReadPktContent => handleEndReadPktContent m s
  | .endReadPkt => handleEndReadPkt s
  | .done => .error .fault s
  | .skipPadding => (skipPadding m false *> pure .continue : M Reaction) s
  | .skipContentPadding => (skipPadding m true *> pure .continue : M Reaction) s
  | .setPktMagicNumberItem => handleSetItem (fun s => .pktMagicNumber s.pktMagicNumber) s
  | .setMetadataStreamUuidItem => handleSetMetadataStreamUuidItem s
  | .setDefClkValItem => handleSetItem (fun s => .defClkVal s.defClkValCycles) s
  | .setDataStreamInfoItem => handleSetDataStreamInfoItem tc s
  | .setPktInfoItem => handleSetPktInfoItem s
  | .setEventRecordInfoItem => handleSetEventRecordInfoItem s
  | .tryBeginReadScope scope => handleTryBeginReadScope scope s
  | .endReadScope scope => handleEndReadScope scope s
  | .tryBeginReadEventRecord => handleTryBeginReadEventRecord m s
  | .endReadEventRecord => handleEndReadEventRecord s
  | .beginReadStructField => handleBeginReadStructField m s
  | .beginReadStaticLenArrayField => handleBeginReadStaticLenArrayField m s
  | .beginReadStaticLenArrayFieldWithMetadataStreamUuidRole =>
    handleBeginReadStaticLenArrayFieldWithMetadataStreamUuidRole m s
  | .beginReadDynLenArrayField => handleBeginReadDynLenArrayField m s
  | .beginReadNullTerminatedStrField cu => handleBeginReadNullTerminatedStrField m cu s
  | .beginReadStaticLenStrField => handleBeginReadStaticLenStrField m s
  | .beginReadDynLenStrField => handleBeginReadDynLenStrField m s
  | .beginReadStaticLenBlobField => handleBeginReadStaticLenBlobField m s
  | .beginReadStaticLenBlobFieldWithMetadataStreamUuidRole =>
    handleBeginReadStaticLenBlobFieldWithMetadataStreamUuidRole m s
  | .beginReadDynLenBlobField => handleBeginReadDynLenBlobField m s
  | .beginReadOptionalField kind => handleBeginReadOptionalField kind s
  | .beginReadVariantField isSigned => handleBeginReadVariantField isSigned s
  | .endReadField kind => handleEndReadField kind s
  | .readRawData => handleReadRawData m s
  | .readMetadataStreamUuidBlobFieldSection => handleReadMetadataStreamUuidBlobFieldSection m s
  | .readSubstrUntilNullCodepoint cu => handleReadSubstrUntilNullCodepoint m cu s
  | .readFixedLenMetadataStreamUuidByteUIntFieldBa8 =>
    handleReadFixedLenMetadataStreamUuidByteUIntFieldBa8 m s
  | .readFixedLenField kind p withRole saveVal =>
    handleReadFixedLenField m kind p withRole saveVal s
  | .readVarLenIntField isSigned withRole saveVal =>
    handleReadVarLenIntField m isSigned withRole saveVal s

end Babeltrace.ItemSeq
