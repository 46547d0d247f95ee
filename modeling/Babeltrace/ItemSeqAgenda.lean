import Babeltrace.ItemSeqRun

/-!
# The agenda of the item sequence iterator

What the iterator is for, without its state machine: an agenda holds what remains to be decoded of
the current scope, field after field, and where the packet stands. Decoding a compound field puts
its members, elements or option on the agenda. There's no stack. The fields which follow each other
without an end of field in between belong to the same compound field: the class which
`saveKeyValAfterNext` uses is the one of the next field, if it's a scalar field.
-/
namespace Babeltrace.ItemSeq
open Machine

inductive Task
  | skip (len : ℕ)
  | field (fc : Fc)
  | endField (kind : ContainerKind) (fc : Fc)
  | rawData (remaining : ℕ)
  | substr (codeUnit : CodeUnit) (part : List UInt8)
  | uuidSection (uuid : List UInt8)
  | uuidByte (fc : FixedLenBitArrayFc) (uuid : List UInt8)
  | item (item : Item)

/-- `head` is the offset of the current event record within the packet. -/
inductive Phase
  | init
  | tryBeginPkt
  | beginPktContent
  | endPktContent
  | skipEndPadding (len : ℕ)
  | endPkt
  | done
  | tryBeginScope (scope : Scope) (fc : Option StructFc) (head : ℕ)
  | endScope (scope : Scope) (head : ℕ)
  | setDataStreamInfo
  | setPktInfo
  | tryBeginEventRecord
  | setEventRecordInfo (head : ℕ)
  | endEventRecord (head : ℕ)

structure Agenda where
  dec : Dec
  tasks : List Task
  phase : Phase

abbrev Answer := Reply Agenda Item Exc

/-- If `p` must be retried, then `tasks` remain. -/
def tryDec {α : Type} (p : DecM α) (tasks : List Task) (phase : Phase) (d : Dec)
    (k : α → Dec → Answer) : Answer :=
  match p d with
  | .ok a d' => k a d'
  | .error .tryAgain d' => .again ⟨d', tasks, phase⟩
  | .error e _ => .failed e

/-- Aligns the head and then does `k`. -/
def tryAlign (m : Medium) (align : ℕ) (tasks : List Task) (phase : Phase) (d : Dec)
    (k : Dec → Answer) : Answer :=
  if d.alignLen align = 0 then k d
  else if d.remainingPktContentLen < d.alignLen align then
    .failed (.error d.headOffsetInItemSeq
      (.contentRequired (d.alignLen align) d.remainingPktContentLen))
  else
    match skipLoop m true (d.alignLen align) (d, d.alignLen align) with
    | .ok () (d', _) => k d'
    | .error .tryAgain (d', len) => .again ⟨d', .skip len :: tasks, phase⟩
    | .error e _ => .failed e

/-! ## Fields -/

def handleRoleItem (len val : ℕ) (r : Dec × Option Item) (role : UIntFieldRole) : Dec × Option Item :=
  let d' := handleUIntFieldRole role len val r.1
  (d', match role with
    | .pktMagicNumber => some (.pktMagicNumber val)
    | .defClkTs => some (.defClkVal d'.defClkVal)
    | _ => r.2)

def handleRoles (roles : List UIntFieldRole) (len val : ℕ) (d : Dec) : Dec × Option Item :=
  roles.foldl (handleRoleItem len val) (d, none)

/-- After the item `i` of an unsigned integer field -/
def afterUInt (sfc : ScalarFc) (len : ℕ) (val : ℤ) (i : Item) (rest : List Task) (phase : Phase)
    (d : Dec) : Answer :=
  let (d', roleItem) :=
    handleRoles sfc.roles len val.toNat (saveKeyVal sfc.keyValSavingIndexes val.toNat d)
  .item i ⟨d', roleItem.toList.map .item ++ rest, phase⟩

def nextScalar : List Task → Option ScalarFc
  | .field (.scalar sfc) :: _ => some sfc
  | _ => none

def afterFixedLen (kind : FixedLenKind) (sfc : ScalarFc) (val : ℤ) (i : Item) (rest : List Task)
    (phase : Phase) (d : Dec) : Answer :=
  if kind ∈ [.bool, .sInt] ∧ sfc.keyValSavingIndexes ≠ [] then
    match (nextScalar rest).getD sfc with
    | .fixedLen kind' _ _ indexes =>
      if kind' = kind then .item i ⟨saveKeyVal indexes val d, rest, phase⟩ else .failed .fault
    | _ => .failed .fault
  else .item i ⟨d, rest, phase⟩

def readScalar (m : Medium) (sfc : ScalarFc) (rest : List Task) (phase : Phase) (d : Dec) :
    Answer :=
  match sfc with
  | .fixedLen kind fc _ _ =>
    tryDec (readFixedLenInt m (kind = .sInt) fc.readParams fc) (.field (.scalar sfc) :: rest)
      phase d fun val d' =>
        if kind = .uInt then afterUInt sfc fc.len val (.fixedLenField kind sfc val) rest phase d'
        else afterFixedLen kind sfc val (.fixedLenField kind sfc val) rest phase d'
  | .varLenInt isSigned _ indexes =>
    tryDec (fun d => varLenLoop m isSigned (varLenFuel d) d) (.field (.scalar sfc) :: rest)
      phase d fun (val, len) d' =>
        if isSigned then
          .item (.varLenIntField isSigned sfc val len) ⟨saveKeyVal indexes val d', rest, phase⟩
        else
          afterUInt sfc d'.curVarLenIntLen val (.varLenIntField isSigned sfc val len) rest phase d'

def rawDataTasks (len : ℕ) : List Task := if len = 0 then [] else [.rawData len]

/-- The begin item, and what there's to do up to the end of the field -/
def Fc.begin (d : Dec) : Fc → Except Exc (ContainerKind × BeginInfo × List Task)
  | .scalar _ => .error .fault
  | .strBlob (.nullTerminatedStr encoding) =>
    .ok (.nullTerminatedStr, .none, [.substr encoding.codeUnit []])
  | .strBlob (.staticLenStr _ len) => .ok (.staticLenStr, .none, rawDataTasks len)
  | .strBlob (.dynLenStr _ index) =>
    .ok (.dynLenStr, .len (8 * d.savedKeyVals index % 2 ^ 64), rawDataTasks (d.savedKeyVals index))
  | .strBlob (.staticLenBlob len) => .ok (.staticLenBlob, .none, rawDataTasks len)
  | .strBlob .staticLenBlobWithMetadataStreamUuidRole =>
    .ok (.staticLenBlob, .none, [.uuidSection []])
  | .strBlob (.dynLenBlob index) =>
    .ok (.dynLenBlob, .len (8 * d.savedKeyVals index % 2 ^ 64),
      rawDataTasks (d.savedKeyVals index))
  | .staticLenArray _ len elemFc => .ok (.staticLenArray, .none, List.replicate len (.field elemFc))
  | .staticLenArrayWithMetadataStreamUuidRole _ elemFc =>
    .ok (.staticLenArray, .none, [.uuidByte elemFc []])
  | .dynLenArray _ index elemFc =>
    .ok (.dynLenArray, .len (d.savedKeyVals index),
      List.replicate (d.savedKeyVals index) (.field elemFc))
  | .struct _ members => .ok (.struct, .none, members.map .field)
  | .optional sel index fc =>
    .ok (sel.kind, .optional (sel.eval d index).1 (sel.eval d index).2,
      if (sel.eval d index).2 then [.field fc] else [])
  | .variant isSigned ranges index opts =>
    let selVal := d.savedKeyVal isSigned index
    match findOptBySelVal ranges selVal with
    | none => .error (.error d.headOffsetInItemSeq (.noVariantOpt selVal))
    | some i =>
      match opts[i]? with
      | none => .error .fault
      | some optFc => .ok (.variantWithIntSel isSigned, .variant selVal i, [.field optFc])

def uuidTasks (uuid : List UInt8) (more : Task) : List Task :=
  if uuid.length = 16 then [.item (.metadataStreamUuid uuid)] else [more]

def doTask (m : Medium) (rest : List Task) (phase : Phase) (d : Dec) : Task → Answer
  | .skip len =>
    match skipLoop m true len (d, len) with
    | .ok () (d', _) => .continue ⟨d', rest, phase⟩
    | .error .tryAgain (d', len') => .again ⟨d', .skip len' :: rest, phase⟩
    | .error e _ => .failed e
  | .field (.scalar sfc) =>
    tryAlign m sfc.align (.field (.scalar sfc) :: rest) phase d (readScalar m sfc rest phase)
  | .field fc =>
    tryAlign m fc.align (.field fc :: rest) phase d fun d' =>
      match fc.begin d' with
      | .ok (kind, info, tasks) =>
        .item (.fieldBegin kind fc info) ⟨d', tasks ++ .endField kind fc :: rest, phase⟩
      | .error e => .failed e
  | .endField kind fc => .item (.fieldEnd kind fc) ⟨d, rest, phase⟩
  | .rawData remaining =>
    tryDec (readRawData m remaining) (.rawData remaining :: rest) phase d fun bytes d' =>
      .item (.rawData bytes) ⟨d', rawDataTasks (remaining - bytes.length) ++ rest, phase⟩
  | .substr cu part =>
    tryDec (readSubstr m cu part) (.substr cu part :: rest) phase d fun (bytes, found, part') d' =>
      .item (.rawData bytes) ⟨d', (if found then [] else [.substr cu part']) ++ rest, phase⟩
  | .uuidSection uuid =>
    tryDec (readRawData m (16 - uuid.length)) (.uuidSection uuid :: rest) phase d fun bytes d' =>
      .item (.rawData bytes)
        ⟨d', uuidTasks (uuid ++ bytes) (.uuidSection (uuid ++ bytes)) ++ rest, phase⟩
  | .uuidByte fc uuid =>
    tryAlign m fc.align (.uuidByte fc uuid :: rest) phase d fun d' =>
      tryDec (readFixedLenInt m false { lenBits := 8, byteOrder := .big, isRev := false } fc)
        (.uuidByte fc uuid :: rest) phase d' fun val d'' =>
          let uuid' := uuid ++ [UInt8.ofNat val.toNat]
          .item (.fixedLenField .uInt (.fixedLen .uInt fc [] []) val)
            ⟨d'', uuidTasks uuid' (.uuidByte fc uuid') ++ rest, phase⟩
  | .item i => .item i ⟨d, rest, phase⟩

/-! ## Packets -/

def Phase.afterScope (d : Dec) (head : ℕ) : Scope → Option Phase
  | .pktHeader => some .setDataStreamInfo
  | .pktCtx => some .setPktInfo
  | .eventRecordHeader => some (.setEventRecordInfo head)
  | .commonEventRecordCtx =>
    match d.eventRecordInfo.cls with
    | some cls => some (.tryBeginScope .specEventRecordCtx cls.specCtxFc head)
    | none => some (.endEventRecord head)
  | .specEventRecordCtx =>
    d.eventRecordInfo.cls.map fun cls => .tryBeginScope .eventRecordPayload cls.payloadFc head
  | .eventRecordPayload => some (.endEventRecord head)

def doPhase (tc : TraceCls) (m : Medium) (d : Dec) : Phase → Answer
  | .init => .continue ⟨d, [], .tryBeginPkt⟩
  | .tryBeginPkt =>
    tryDec (if (resetForNewPkt d).remainingBufLen = 0 then tryHaveData m 1 else pure true) []
      .tryBeginPkt (resetForNewPkt d) fun hasData d' =>
        if hasData then .item .pktBegin ⟨d', [], .beginPktContent⟩ else .ended
  | .beginPktContent =>
    .item .pktContentBegin ⟨d, [], .tryBeginScope .pktHeader tc.pktHeaderFc 0⟩
  | .endPktContent =>
    if d.expectedTotalLen = infDataLen then .item .pktContentEnd ⟨d, [], .endPkt⟩
    else
      let len := safeSub d.expectedTotalLen d.headOffsetInCurPkt
      match skipLoop m false len (d, len) with
      | .ok () (d', _) => .item .pktContentEnd ⟨d', [], .endPkt⟩
      | .error .tryAgain (d', len') => .again ⟨d', [], .skipEndPadding len'⟩
      | .error e _ => .failed e
  | .skipEndPadding len =>
    match skipLoop m false len (d, len) with
    | .ok () (d', _) => .continue ⟨d', [], .endPkt⟩
    | .error .tryAgain (d', len') => .again ⟨d', [], .skipEndPadding len'⟩
    | .error e _ => .failed e
  | .endPkt => .item .pktEnd ⟨endReadPkt d, [], .tryBeginPkt⟩
  | .done => .failed .fault
  | .tryBeginScope scope none head =>
    match Phase.afterScope d head scope with
    | some phase => .continue ⟨d, [], phase⟩
    | none => .failed .fault
  | .tryBeginScope scope (some fc) head =>
    .item (.scopeBegin scope) ⟨d, [.field fc.toFc], .endScope scope head⟩
  | .endScope scope head =>
    match Phase.afterScope d head scope with
    | some phase => .item (.scopeEnd scope) ⟨d, [], phase⟩
    | none => .failed .fault
  | .setDataStreamInfo =>
    tryDec (ItemSeq.setDataStreamInfo tc) [] .setDataStreamInfo d fun _ d' =>
      .item (.dataStreamInfo d'.dataStreamInfo) ⟨d', [],
        match d'.dataStreamInfo.cls with
        | some cls => .tryBeginScope .pktCtx cls.pktCtxFc 0
        | none => .setPktInfo⟩
  | .setPktInfo =>
    tryDec ItemSeq.setPktInfo [] .setPktInfo d fun _ d' =>
      .item (.pktInfo d'.pktInfo) ⟨d', [], .tryBeginEventRecord⟩
  | .tryBeginEventRecord =>
    tryDec (hasEventRecord m) [] .tryBeginEventRecord d fun hasEventRecord d' =>
      if hasEventRecord then
        match d'.dataStreamInfo.cls with
        | some cls => .item .eventRecordBegin ⟨d', [],
            .tryBeginScope .eventRecordHeader cls.eventRecordHeaderFc d'.headOffsetInCurPkt⟩
        | none => .failed .fault
      else .continue ⟨d', [], .endPktContent⟩
  | .setEventRecordInfo head =>
    tryDec ItemSeq.setEventRecordInfo [] (.setEventRecordInfo head) d fun cls d' =>
      .item (.eventRecordInfo d'.eventRecordInfo) ⟨d', [],
        .tryBeginScope .commonEventRecordCtx cls.commonEventRecordCtxFc head⟩
  | .endEventRecord head =>
    if d.headOffsetInCurPkt = head then
      .failed (.error d.headOffsetInItemSeq .emptyEventRecord)
    else .item .eventRecordEnd ⟨d, [], .tryBeginEventRecord⟩

def Agenda.reply (tc : TraceCls) (m : Medium) (a : Agenda) : Answer :=
  match a.tasks with
  | [] => doPhase tc m a.dec a.phase
  | task :: rest => doTask m rest a.phase a.dec task

end Babeltrace.ItemSeq
