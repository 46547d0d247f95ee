import Babeltrace.ItemSeqGrammar
import Babeltrace.MsgSeqChecks

/-!
# CTF message iterator

`ctf::src::MsgIter` (`msg-iter.cpp`) makes messages from the items of its item sequence iterator. The
handlers of field items only set the fields of the current packet or event, which are left out. The
length of the message queue, which the constructor doesn't initialize, is taken as zero.
-/
namespace Babeltrace.CtfSrc
open ItemSeq Machine Babeltrace.Graph Excepts

/-- `bt2c::Error`, failed assertions or preconditions, and what the item sequence iterator throws -/
inductive MsgExc
  | error
  | fault
  | queueFull
  | items (exc : ItemSeq.Exc)

structure MsgIterQuirks where
  pktEndDefClkValZero : Bool := false
  eventRecordDefClkValGtNextPktBeginDefClkVal : Bool := false
  eventRecordDefClkValLtPktBeginDefClkVal : Bool := false

/-- What the iterator is created with; `streamClsId` and `streamId` are the numeric IDs of `stream`
and of its class, and `hasField` tells which scopes have a field in trace IR. -/
structure Config where
  stream : Stream
  streamClsId : ℕ
  streamId : ℕ
  expectedMetadataStreamUuid : Option (List UInt8)
  quirks : MsgIterQuirks
  hasField : Scope → Option EventRecordCls → Bool

/-- `pktCount` and `eventCount` number the packets and the events which the iterator creates. -/
structure MsgIter where
  queue : List Msg := []
  skipItemsUntilScopeEndItem : Bool := false
  curMsg : Option (Msg × EventRecordCls) := none
  curPkt : Option Packet := none
  curPktSeqNum : Option UInt64 := none
  curDefClkVal : Option UInt64 := none
  curDiscErCounterSnap : Option UInt64 := none
  pktBeginDefClkVal : Option UInt64 := none
  pktEndDefClkVal : Option UInt64 := none
  emittedStreamBeginMsg : Bool := false
  delayPktBeginMsgEmission : Bool := false
  pktCount : ℕ := 0
  eventCount : ℕ := 0

def ull (val : Option ℕ) : Option UInt64 := val.map UInt64.ofNat

/-- `BT_ASSERT_DBG()`, or a precondition of a library function -/
def require (cond : Bool) : Except MsgExc Unit := if cond then .ok () else .error .fault

def check (cond : Bool) : Except MsgExc Unit := if cond then .ok () else .error .error

def borrow {α : Type} : Option α → Except MsgExc α
  | some a => .ok a
  | none => .error .fault

namespace MsgIter

variable (cfg : Config)

def addMsgToQueue (it : MsgIter) (msg : Msg) : Except MsgExc MsgIter :=
  if it.queue.length < 3 then .ok { it with queue := it.queue ++ [msg] } else .error .queueFull

def handlePktBegin (it : MsgIter) : Except MsgExc MsgIter := do
  require (it.curPkt.isNone && cfg.stream.cls.supportsPackets)
  return { it with curPkt := some ⟨it.pktCount, cfg.stream⟩, pktCount := it.pktCount + 1 }

def emitPktBeginMsg (it : MsgIter) (defClkVal : Option UInt64) : Except MsgExc MsgIter := do
  let pkt ← borrow it.curPkt
  require (pkt.stream.cls.packetsHaveBeginningDefaultClockSnapshot == defClkVal.isSome)
  { it with curDefClkVal := defClkVal.or it.curDefClkVal }.addMsgToQueue
    (.packetBeginning pkt (defClkVal.getD 0))

/-- `_emitDelayedPktBeginMsg()` if the emission is delayed -/
def emitDelayedPktBeginMsg (it : MsgIter) (otherDefClkVal : Option UInt64) :
    Except MsgExc MsgIter :=
  if it.delayPktBeginMsgEmission then
    { it with delayPktBeginMsgEmission := false }.emitPktBeginMsg <|
      match it.pktBeginDefClkVal, otherDefClkVal with
      | some val, some other => some (min val other)
      | some val, none => some val
      | none, other => other
  else .ok it

/-- The default clock value of a packet end message, and the current one which follows -/
def pktEndDefClkVals (it : MsgIter) : Except MsgExc (Option UInt64 × Option UInt64) :=
  match it.pktEndDefClkVal with
  | none => .ok (none, it.curDefClkVal)
  | some pktEnd =>
    if cfg.quirks.pktEndDefClkValZero && it.pktBeginDefClkVal.any (· != 0) && pktEnd == 0 ||
        cfg.quirks.eventRecordDefClkValGtNextPktBeginDefClkVal &&
          it.curDefClkVal.any (pktEnd < ·) then
      (borrow it.curDefClkVal).map fun cur => (some cur, some cur)
    else .ok (some pktEnd, some pktEnd)

def handlePktEnd (it : MsgIter) : Except MsgExc MsgIter := do
  require it.curMsg.isNone
  let it ← it.emitDelayedPktBeginMsg it.pktEndDefClkVal
  let pkt ← borrow it.curPkt
  let (defClkVal, curDefClkVal) ← it.pktEndDefClkVals cfg
  require (pkt.stream.cls.packetsHaveEndDefaultClockSnapshot == defClkVal.isSome)
  { it with curDefClkVal, curPkt := none }.addMsgToQueue (.packetEnd pkt (defClkVal.getD 0))

/-- Whether or not nothing is needed from a scope -/
def skipsScope (it : MsgIter) : Scope → Except MsgExc Bool
  | .pktHeader | .eventRecordHeader => .ok true
  | .pktCtx => (require it.curPkt.isSome).map fun _ => !cfg.hasField .pktCtx none
  | scope => (borrow it.curMsg).map fun msg => !cfg.hasField scope (some msg.2)

def handleScopeBegin (it : MsgIter) (scope : Scope) : Except MsgExc MsgIter := do
  let skip ← it.skipsScope cfg scope
  return { it with skipItemsUntilScopeEndItem := skip }

def handleEventRecordEnd (it : MsgIter) : Except MsgExc MsgIter := do
  let msg ← borrow it.curMsg
  { it with curMsg := none }.addMsgToQueue msg.1

def handleDataStreamInfo (it : MsgIter) (info : DataStreamInfo) : Except MsgExc MsgIter := do
  let cls ← borrow info.cls
  check (cls.id == cfg.streamClsId && info.id.all (· == cfg.streamId))
  if it.emittedStreamBeginMsg then return it
  else addMsgToQueue { it with emittedStreamBeginMsg := true } (.streamBeginning cfg.stream none)

/-- `_createInitDiscEventsMsg()` and `_createInitDiscPktsMsg()`, with the count to set -/
def createInitDiscMsg (items : DiscardedItems) (prevPktEndDefClkVal endDefClkVal : Option UInt64)
    (count : UInt64) : Except MsgExc Msg := do
  require (cfg.stream.cls.supportsDiscarded items && count != 0)
  if cfg.stream.cls.discardedHaveDefaultClockSnapshots items then
    let beginVal ← borrow prevPktEndDefClkVal
    let endVal ← borrow endDefClkVal
    require (beginVal ≤ endVal)
    return .discarded items cfg.stream beginVal endVal (some count.toNat)
  else return .discarded items cfg.stream 0 0 (some count.toNat)

/-- How many event records were discarded between two counter snapshots, if any -/
def discEventCount (prev cur : UInt64) : Option UInt64 :=
  if prev < cur then some (cur - prev) else none

/-- How many packets are missing between two sequence numbers, if any -/
def discPktCount (prev cur : UInt64) : Option UInt64 :=
  if prev + 1 < cur then some (cur - prev - 1) else none

/-- A part of the handler of packet information items: `prev` and `cur` are the previous and new
counter snapshots or sequence numbers. -/
def emitDiscMsg (it : MsgIter) (items : DiscardedItems) (count : UInt64 → UInt64 → Option UInt64)
    (prev cur prevPktEndDefClkVal endDefClkVal : Option UInt64) : Except MsgExc MsgIter :=
  match prev with
  | none => .ok it
  | some prev => do
    let cur ← borrow cur
    match count prev cur with
    | none => return it
    | some count =>
      let msg ← createInitDiscMsg cfg items prevPktEndDefClkVal endDefClkVal count
      it.addMsgToQueue msg

def handlePktInfo (it : MsgIter) (info : PktInfo) : Except MsgExc MsgIter := do
  let prevPktEndDefClkVal := it.pktEndDefClkVal
  let it := { it with
    pktBeginDefClkVal := ull info.beginDefClkVal, pktEndDefClkVal := ull info.endDefClkVal }
  let it ← it.emitDiscMsg cfg .events discEventCount it.curDiscErCounterSnap
    (ull info.discErCounterSnap) prevPktEndDefClkVal it.pktEndDefClkVal
  let it ← it.emitDiscMsg cfg .packets discPktCount it.curPktSeqNum (ull info.seqNum)
    prevPktEndDefClkVal it.pktBeginDefClkVal
  let it := { it with
    curDiscErCounterSnap := ull info.discErCounterSnap, curPktSeqNum := ull info.seqNum }
  require it.curMsg.isNone
  if cfg.quirks.eventRecordDefClkValLtPktBeginDefClkVal then
    return { it with delayPktBeginMsgEmission := true }
  else it.emitPktBeginMsg it.pktBeginDefClkVal

def handleEventRecordInfo (it : MsgIter) (info : EventRecordInfo) : Except MsgExc MsgIter := do
  let cls ← borrow info.cls
  require it.curMsg.isNone
  let it ← it.emitDelayedPktBeginMsg (ull info.defClkVal)
  require (cfg.stream.cls.defaultClockClass.isSome == info.defClkVal.isSome)
  return { it with
    curDefClkVal := (ull info.defClkVal).or it.curDefClkVal
    curMsg := some (.event cfg.stream it.curPkt it.eventCount ((ull info.defClkVal).getD 0), cls)
    eventCount := it.eventCount + 1 }

def handleItem (it : MsgIter) : Item → Except MsgExc MsgIter
  | .pktBegin => it.handlePktBegin cfg
  | .pktEnd => it.handlePktEnd cfg
  | .scopeBegin scope => it.handleScopeBegin cfg scope
  | .scopeEnd _ => .ok { it with skipItemsUntilScopeEndItem := false }
  | .pktContentEnd => (require it.curPkt.isSome).map fun _ => it
  | .eventRecordEnd => it.handleEventRecordEnd
  | .pktMagicNumber val => (check (val == 0xc1fc1fc1)).map fun _ => it
  | .metadataStreamUuid uuid => do
    let expected ← borrow cfg.expectedMetadataStreamUuid
    (check (uuid == expected)).map fun _ => it
  | .dataStreamInfo info => it.handleDataStreamInfo cfg info
  | .pktInfo info => it.handlePktInfo cfg info
  | .eventRecordInfo info => it.handleEventRecordInfo cfg info
  | _ => .ok it

def tryHandleItem (it : MsgIter) : Item → Except MsgExc MsgIter
  | .scopeEnd scope => it.handleItem cfg (.scopeEnd scope)
  | item => if it.skipItemsUntilScopeEndItem then .ok it else it.handleItem cfg item

end MsgIter

structure Sys where
  itemSeqIter : ItemSeq.Iter := {}
  msgIter : MsgIter := {}
  isDone : Bool := false

/-- `MsgIter::next()`, step by step -/
def msgReply (cfg : Config) (tc : TraceCls) (m : Medium) (s : Sys) : Reply Sys Msg MsgExc :=
  if s.isDone then .ended
  else
    match s.msgIter.queue with
    | msg :: queue => .item msg { s with msgIter := { s.msgIter with queue } }
    | [] =>
      match reply tc m s.itemSeqIter with
      | .continue i => .continue { s with itemSeqIter := i }
      | .again i => .again { s with itemSeqIter := i }
      | .failed exc => .failed (.items exc)
      | .ended => .item (.streamEnd cfg.stream none) { s with isDone := true }
      | .item item i =>
        match s.msgIter.tryHandleItem cfg item with
        | .ok it => .continue { s with itemSeqIter := i, msgIter := it }
        | .error exc => .failed exc

/-! ## Order of the items -/

/-- Where an item sequence is, as the marks of packets and event records tell -/
inductive Stage
  | outside
  | begun
  | identified
  | content
  | record

def isInner : Item → Bool
  | .pktBegin | .pktEnd | .scopeBegin _ | .scopeEnd _ | .eventRecordEnd | .dataStreamInfo _
  | .pktInfo _ | .eventRecordInfo _ => false
  | _ => true

/-- The flag tells whether or not the place is within a scope. -/
inductive Follows : Stage × Bool → Item → Stage × Bool → Prop
  | pktBegin : Follows (.outside, false) .pktBegin (.begun, false)
  | dataStreamInfo (info) : Follows (.begun, false) (.dataStreamInfo info) (.identified, false)
  | pktInfo (info) : Follows (.identified, false) (.pktInfo info) (.content, false)
  | eventRecordInfo (info) : Follows (.content, false) (.eventRecordInfo info) (.record, false)
  | eventRecordEnd : Follows (.record, false) .eventRecordEnd (.content, false)
  | pktEnd : Follows (.content, false) .pktEnd (.outside, false)
  | scopeBegin (stage scope) : Follows (stage, false) (.scopeBegin scope) (stage, true)
  | scopeEnd (stage scope) : Follows (stage, true) (.scopeEnd scope) (stage, false)
  | inner {item} (place) (h : isInner item = true) : Follows place item place

def scopeStage : Scope → Stage
  | .pktHeader => .begun
  | .pktCtx => .identified
  | .eventRecordHeader => .content
  | _ => .record

def place : ItemSeq.Phase → Stage × Bool
  | .init | .tryBeginPkt | .done => (.outside, false)
  | .beginPktContent | .setDataStreamInfo => (.begun, false)
  | .setPktInfo => (.identified, false)
  | .tryBeginScope scope _ _ => (scopeStage scope, false)
  | .endScope scope _ => (scopeStage scope, true)
  | .endEventRecord _ => (.record, false)
  | _ => (.content, false)

/-- A reply goes from one place to another one, and only ends between packets. -/
def Goes (phase : ItemSeq.Phase) : Answer → Prop
  | .continue a | .again a => place a.phase = place phase
  | .item item a => Follows (place phase) item (place a.phase)
  | .ended => place phase = (.outside, false)
  | .failed _ => True

def Inner : Answer → Prop
  | .item item _ => isInner item = true
  | .ended => False
  | _ => True

section
variable {tc : TraceCls} {m : Medium} {d : Dec} {phase : ItemSeq.Phase} {rest : List Task}

theorem readScalar_inner (sfc : ScalarFc) : Inner (readScalar m sfc rest phase d) := by
  cases sfc with
  | fixedLen kind fc roles indexes =>
    refine tryDec_rule (fun val d' _ => ?_) (fun _ _ => trivial) fun _ => trivial
    split
    · rfl
    · unfold afterFixedLen
      split
      · split
        · split
          · rfl
          · trivial
        · trivial
      · rfl
  | varLenInt isSigned roles indexes =>
    refine tryDec_rule (fun r d' _ => ?_) (fun _ _ => trivial) fun _ => trivial
    cases isSigned <;> rfl

theorem doTask_inner {task : Task} {p : Fc → Bool} (h : TasksReady p (task :: rest)) :
    Inner (doTask m rest phase d task) := by
  cases task with
  | skip len =>
    simp only [doTask]
    split <;> trivial
  | field fc =>
    cases fc with
    | scalar sfc =>
      exact tryAlign_rule (fun _ _ _ _ => readScalar_inner sfc) (fun _ _ _ _ => trivial)
        fun _ => trivial
    | _ =>
      refine tryAlign_rule (fun _ _ _ _ => ?_) (fun _ _ _ _ => trivial) fun _ => trivial
      split
      · rfl
      · trivial
  | endField => rfl
  | rawData | substr | uuidSection =>
    exact tryDec_rule (fun _ _ _ => rfl) (fun _ _ => trivial) fun _ => trivial
  | uuidByte =>
    exact tryAlign_rule (fun _ _ _ _ => tryDec_rule (fun _ _ _ => rfl) (fun _ _ => trivial)
      fun _ => trivial) (fun _ _ _ _ => trivial) fun _ => trivial
  | item i =>
    have hextra : i.isExtra = true := h (.item i) List.mem_cons_self
    cases i with
    | pktMagicNumber | defClkVal | metadataStreamUuid => rfl
    | _ => cases hextra

theorem afterScope_place {head : ℕ} {scope : Scope} {phase' : ItemSeq.Phase}
    (h : Phase.afterScope d head scope = some phase') : place phase' = (scopeStage scope, false) := by
  cases scope with
  | pktHeader | pktCtx | eventRecordHeader | eventRecordPayload =>
    cases h
    rfl
  | commonEventRecordCtx =>
    simp only [Phase.afterScope] at h
    split at h <;> cases h <;> rfl
  | specEventRecordCtx =>
    obtain ⟨cls, -, rfl⟩ := Option.map_eq_some_iff.mp h
    rfl

theorem doPhase_goes : Goes phase (doPhase tc m d phase) := by
  cases phase with
  | init | beginPktContent | done => first | trivial | rfl | exact .inner _ rfl
  | endPkt => exact .pktEnd
  | tryBeginPkt =>
    refine tryDec_rule (fun b d' _ => ?_) (fun _ _ => rfl) fun _ => trivial
    cases b
    · rfl
    · exact .pktBegin
  | endPktContent | skipEndPadding =>
    simp only [doPhase]
    repeat' split
    all_goals first | trivial | rfl | exact .inner _ rfl
  | tryBeginScope scope fc head =>
    cases fc with
    | some fc => exact .scopeBegin _ _
    | none =>
      simp only [doPhase]
      split
      · rename_i h
        exact afterScope_place h
      · trivial
  | endScope scope head =>
    simp only [doPhase]
    split
    · rename_i h
      rw [Goes, afterScope_place h]
      exact .scopeEnd _ _
    · trivial
  | setDataStreamInfo =>
    refine tryDec_rule (fun _ d' _ => ?_) (fun _ _ => rfl) fun _ => trivial
    cases hcls : d'.dataStreamInfo.cls <;> exact .dataStreamInfo _
  | setPktInfo =>
    exact tryDec_rule (fun _ _ _ => .pktInfo _) (fun _ _ => rfl) fun _ => trivial
  | tryBeginEventRecord =>
    refine tryDec_rule (fun b d' _ => ?_) (fun _ _ => rfl) fun _ => trivial
    repeat' split
    all_goals first | trivial | rfl | exact .inner _ rfl
  | setEventRecordInfo head =>
    exact tryDec_rule (fun _ _ _ => .eventRecordInfo _) (fun _ _ => rfl) fun _ => trivial
  | endEventRecord head =>
    simp only [doPhase]
    split
    · trivial
    · exact .eventRecordEnd

theorem reply_goes (tc : TraceCls) (m : Medium) {a : Agenda} (h : TasksReady Fc.hasOpts a.tasks) :
    Goes a.phase (a.reply tc m) := by
  obtain ⟨d, tasks, phase⟩ := a
  cases tasks with
  | nil => exact doPhase_goes
  | cons task rest =>
    have hinner : Inner (doTask m rest phase d task) := doTask_inner h
    have hleaves : Leaves Fc.hasOpts phase (doTask m rest phase d task) := doTask_tasks h
    change Goes phase (doTask m rest phase d task)
    cases hr : doTask m rest phase d task with
    | «continue» a | again a =>
      rw [hr] at hleaves
      exact congrArg place hleaves.1
    | item item a =>
      rw [hr] at hleaves hinner
      rw [Goes, hleaves.1]
      exact .inner _ hinner
    | ended =>
      rw [hr] at hinner
      exact hinner.elim
    | failed => trivial

end

/-! ## Messages of a stream -/

/-- The messages are those of the stream, which is at some phase of the protocol after them. -/
structure Sent (stream : Stream) (msgs : List Msg) (phase : Graph.Phase) : Prop where
  stream_eq : ∀ msg ∈ msgs, msg.stream = some stream
  phase_eq : msgs.foldlM (Graph.Phase.step stream.cls) .notBegun = some phase

variable {stream : Stream} {msgs : List Msg} {beginVal endVal : Option UInt64} {P : Medium → Prop}

theorem Sent.concat {msg : Msg} {phase phase' : Graph.Phase} (h : Sent stream msgs phase)
    (hstream : msg.stream = some stream) (hstep : phase.step stream.cls msg = some phase') :
    Sent stream (msgs ++ [msg]) phase' := by
  refine ⟨?_, ?_⟩
  · simpa [or_imp, forall_and, hstream] using h.stream_eq
  · simp [List.foldlM_append, h.phase_eq, hstep]

theorem Sent.eq_nil (h : Sent stream msgs .notBegun) : msgs = [] := by
  -- no message leads to the initial phase
  cases msgs using List.reverseRecOn with
  | nil => rfl
  | append_singleton msgs msg =>
    have hfold := h.phase_eq
    simp only [List.foldlM_append, Option.bind_eq_bind, Option.bind_eq_some_iff, List.foldlM_cons,
      List.foldlM_nil] at hfold
    obtain ⟨phase, -, _, hstep, hlast⟩ := hfold
    cases hlast
    unfold Graph.Phase.step at hstep
    split at hstep <;> simp at hstep

theorem Sent.extendable {phase : Graph.Phase} (h : Sent stream msgs phase) : Extendable msgs := by
  rw [extendable_iff]
  intro stream'
  by_cases heq : stream' = stream
  · have hself : KeyedFold.ofKey Msg.stream stream' msgs = msgs :=
      List.filter_eq_self.mpr fun msg hmsg => by simp [h.stream_eq msg hmsg, heq]
    rw [hself, heq]
    exact ⟨phase, h.phase_eq⟩
  · have hnil : KeyedFold.ofKey Msg.stream stream' msgs = [] :=
      List.filter_eq_nil_iff.mpr fun msg hmsg => by simp [h.stream_eq msg hmsg, Ne.symm heq]
    rw [hnil]
    exact ⟨.notBegun, rfl⟩

theorem Sent.validSequence (h : Sent stream msgs .ended) : ValidSequence msgs := by
  rw [validSequence_iff, followsProtocol_iff_of_stream stream ?_ h.stream_eq]
  · exact h.phase_eq
  · rintro rfl
    cases h.phase_eq

namespace MsgIter

variable {cfg : Config} {it it' : MsgIter} {msg : Msg} {msgs : List Msg} {defClkVal : Option UInt64}
  {item : Item} {items : DiscardedItems}

theorem require_eq_ok {cond : Bool} {u : Unit} (h : require cond = .ok u) : cond = true := by
  cases cond with
  | true => rfl
  | false => cases h

theorem borrow_eq_ok {α : Type} {o : Option α} {a : α} (h : borrow o = .ok a) : o = some a := by
  cases o with
  | some a => exact congrArg some (Except.ok.inj h)
  | none => cases h

theorem addMsgToQueue_eq (h : it.addMsgToQueue msg = .ok it') :
    it' = { it with queue := it.queue ++ [msg] } := by
  unfold addMsgToQueue at h
  split at h
  · exact (Except.ok.inj h).symm
  · cases h

theorem emitPktBeginMsg_eq (h : it.emitPktBeginMsg defClkVal = .ok it') :
    ∃ pkt cs curDefClkVal, it.curPkt = some pkt ∧
      it' = { it with curDefClkVal, queue := it.queue ++ [.packetBeginning pkt cs] } := by
  obtain ⟨pkt, hpkt, h⟩ := bind_eq_ok.mp h
  obtain ⟨-, -, h⟩ := bind_eq_ok.mp h
  exact ⟨pkt, _, _, borrow_eq_ok hpkt, (addMsgToQueue_eq h :)⟩

theorem emitDelayedPktBeginMsg_cases (h : it.emitDelayedPktBeginMsg defClkVal = .ok it') :
    it.delayPktBeginMsgEmission = false ∧ it' = it ∨
      it.delayPktBeginMsgEmission = true ∧ ∃ pkt cs curDefClkVal, it.curPkt = some pkt ∧
        it' = { it with
          delayPktBeginMsgEmission := false, curDefClkVal
          queue := it.queue ++ [.packetBeginning pkt cs] } := by
  unfold emitDelayedPktBeginMsg at h
  cases hdelay : it.delayPktBeginMsgEmission with
  | false =>
    rw [hdelay] at h
    exact .inl ⟨rfl, (Except.ok.inj h).symm⟩
  | true =>
    rw [hdelay, if_pos rfl] at h
    exact .inr ⟨rfl, emitPktBeginMsg_eq h⟩

theorem createInitDiscMsg_eq {count : UInt64}
    (h : createInitDiscMsg cfg items beginVal endVal count = .ok msg) :
    cfg.stream.cls.supportsDiscarded items = true ∧
      ∃ beginCs endCs count, msg = .discarded items cfg.stream beginCs endCs count := by
  obtain ⟨_, hsupports, h⟩ := bind_eq_ok.mp h
  refine ⟨((Bool.and_eq_true _ _).mp (require_eq_ok hsupports)).1, ?_⟩
  split at h
  · obtain ⟨beginCs, -, h⟩ := bind_eq_ok.mp h
    obtain ⟨endCs, -, h⟩ := bind_eq_ok.mp h
    obtain ⟨-, -, h⟩ := bind_eq_ok.mp h
    exact ⟨_, _, _, (Except.ok.inj h).symm⟩
  · exact ⟨_, _, _, (Except.ok.inj h).symm⟩

theorem emitDiscMsg_sent {count : UInt64 → UInt64 → Option UInt64}
    {prev cur beginVal endVal : Option UInt64}
    (h : it.emitDiscMsg cfg items count prev cur beginVal endVal = .ok it')
    (hsent : Sent cfg.stream (msgs ++ it.queue) .outside) :
    ∃ queue, it' = { it with queue } ∧ Sent cfg.stream (msgs ++ queue) .outside := by
  unfold emitDiscMsg at h
  split at h
  · exact ⟨_, (Except.ok.inj h).symm, hsent⟩
  · obtain ⟨cur, -, h⟩ := bind_eq_ok.mp h
    split at h
    · exact ⟨_, (Except.ok.inj h).symm, hsent⟩
    · obtain ⟨msg, hmsg, h⟩ := bind_eq_ok.mp h
      obtain ⟨hsupports, beginCs, endCs, count, rfl⟩ := createInitDiscMsg_eq hmsg
      refine ⟨_, addMsgToQueue_eq h, ?_⟩
      rw [← List.append_assoc]
      exact hsent.concat rfl (by simp [Graph.Phase.step, hsupports])

/-- Where the stream is when the item sequence is at some stage -/
def At (cfg : Config) (it : MsgIter) : Stage → Graph.Phase → Prop
  | .outside, phase | .begun, phase => it.delayPktBeginMsgEmission = false ∧
      phase = if it.emittedStreamBeginMsg then .outside else .notBegun
  | .identified, phase => it.delayPktBeginMsgEmission = false ∧ it.emittedStreamBeginMsg = true ∧
      phase = .outside
  | .content, phase => it.emittedStreamBeginMsg = true ∧
      (it.delayPktBeginMsgEmission = true ∧ phase = .outside ∨
        it.delayPktBeginMsgEmission = false ∧ ∃ pkt ∈ it.curPkt, phase = .inside pkt)
  | .record, phase => it.emittedStreamBeginMsg = true ∧ it.delayPktBeginMsgEmission = false ∧
      ∃ pkt ∈ it.curPkt, phase = .inside pkt ∧
        ∃ event cs cls, it.curMsg = some (.event cfg.stream (some pkt) event cs, cls)

structure Linked (it : MsgIter) (cfg : Config) (place : Stage × Bool) (msgs : List Msg) : Prop where
  sent : ∃ phase, Sent cfg.stream (msgs ++ it.queue) phase ∧ it.At cfg place.1 phase
  pkt : ∀ pkt ∈ it.curPkt, pkt.stream = cfg.stream ∧ cfg.stream.cls.supportsPackets = true
  skip : it.skipItemsUntilScopeEndItem = true → place.2 = true

theorem emitted_pktBegin {queue : List Msg} {curPkt : Option Packet} {pkt : Packet} (cs : UInt64)
    (hsent : Sent cfg.stream (msgs ++ queue) .outside)
    (hpkts : ∀ pkt ∈ curPkt, pkt.stream = cfg.stream ∧ cfg.stream.cls.supportsPackets = true)
    (hpkt : curPkt = some pkt) :
    Sent cfg.stream (msgs ++ (queue ++ [.packetBeginning pkt cs])) (.inside pkt) := by
  obtain ⟨hstream, hsupports⟩ := hpkts pkt hpkt
  rw [← List.append_assoc]
  exact hsent.concat (congrArg some hstream) (by simp [Graph.Phase.step, hsupports])

theorem Linked.handleDataStreamInfo {info : DataStreamInfo} (h : it.Linked cfg (.begun, false) msgs)
    (hit : it.handleDataStreamInfo cfg info = .ok it') :
    it'.Linked cfg (.identified, false) msgs := by
  obtain ⟨phase, hsent, hdelay, rfl⟩ := h.sent
  obtain ⟨_, -, hit⟩ := bind_eq_ok.mp hit
  obtain ⟨_, -, hit⟩ := bind_eq_ok.mp hit
  cases hemitted : it.emittedStreamBeginMsg with
  | true =>
    rw [hemitted] at hit hsent
    cases hit
    exact ⟨⟨_, hsent, hdelay, hemitted, rfl⟩, h.pkt, h.skip⟩
  | false =>
    rw [hemitted] at hit hsent
    cases addMsgToQueue_eq hit
    refine ⟨⟨.outside, ?_, hdelay, rfl, rfl⟩, h.pkt, h.skip⟩
    rw [← List.append_assoc]
    exact hsent.concat rfl rfl

theorem Linked.handlePktInfo {info : PktInfo} (h : it.Linked cfg (.identified, false) msgs)
    (hit : it.handlePktInfo cfg info = .ok it') : it'.Linked cfg (.content, false) msgs := by
  obtain ⟨phase, hsent, hdelay, hemitted, rfl⟩ := h.sent
  obtain ⟨it₁, hevents, hit⟩ := bind_eq_ok.mp hit
  obtain ⟨queue₁, rfl, hsent⟩ := emitDiscMsg_sent hevents hsent
  obtain ⟨it₂, hpackets, hit⟩ := bind_eq_ok.mp hit
  obtain ⟨queue₂, rfl, hsent⟩ := emitDiscMsg_sent hpackets hsent
  obtain ⟨-, -, hit⟩ := bind_eq_ok.mp hit
  split at hit
  · cases hit
    exact ⟨⟨_, hsent, hemitted, .inl ⟨rfl, rfl⟩⟩, h.pkt, h.skip⟩
  · obtain ⟨pkt, cs, cur, hpkt, rfl⟩ := emitPktBeginMsg_eq hit
    exact ⟨⟨_, emitted_pktBegin cs hsent h.pkt hpkt, hemitted, .inr ⟨hdelay, pkt, hpkt, rfl⟩⟩,
      h.pkt, h.skip⟩

theorem Linked.emitDelayed (h : it.Linked cfg (.content, false) msgs)
    (hit : it.emitDelayedPktBeginMsg defClkVal = .ok it') :
    it'.Linked cfg (.content, false) msgs ∧ it'.delayPktBeginMsgEmission = false ∧
      it'.curMsg = it.curMsg := by
  obtain ⟨phase, hsent, hemitted, hphase⟩ := h.sent
  obtain ⟨hdelay, rfl⟩ | ⟨hdelay, pkt, cs, cur, hpkt, rfl⟩ := emitDelayedPktBeginMsg_cases hit
  · exact ⟨h, hdelay, rfl⟩
  · obtain ⟨-, rfl⟩ | ⟨hno, -⟩ := hphase
    · exact ⟨⟨⟨_, emitted_pktBegin cs hsent h.pkt hpkt, hemitted, .inr ⟨rfl, pkt, hpkt, rfl⟩⟩,
        h.pkt, h.skip⟩, rfl, rfl⟩
    · rw [hdelay] at hno
      cases hno

theorem Linked.inside (h : it.Linked cfg (.content, false) msgs)
    (hdelay : it.delayPktBeginMsgEmission = false) :
    it.emittedStreamBeginMsg = true ∧
      ∃ pkt, it.curPkt = some pkt ∧ Sent cfg.stream (msgs ++ it.queue) (.inside pkt) := by
  obtain ⟨phase, hsent, hemitted, ⟨hyes, -⟩ | ⟨-, pkt, hpkt, rfl⟩⟩ := h.sent
  · rw [hdelay] at hyes
    cases hyes
  · exact ⟨hemitted, pkt, hpkt, hsent⟩

theorem Linked.handleEventRecordInfo {info : EventRecordInfo}
    (h : it.Linked cfg (.content, false) msgs)
    (hit : it.handleEventRecordInfo cfg info = .ok it') :
    it'.Linked cfg (.record, false) msgs := by
  obtain ⟨cls, -, hit⟩ := bind_eq_ok.mp hit
  obtain ⟨-, -, hit⟩ := bind_eq_ok.mp hit
  obtain ⟨it₁, hdelayed, hit⟩ := bind_eq_ok.mp hit
  obtain ⟨-, -, hit⟩ := bind_eq_ok.mp hit
  obtain ⟨h, hdelay, -⟩ := h.emitDelayed hdelayed
  obtain ⟨hemitted, pkt, hpkt, hsent⟩ := h.inside hdelay
  cases hit
  exact ⟨⟨_, hsent, hemitted, hdelay, pkt, hpkt, rfl, _, _, cls, by rw [hpkt]⟩, h.pkt, h.skip⟩

theorem Linked.handleEventRecordEnd (h : it.Linked cfg (.record, false) msgs)
    (hit : it.handleEventRecordEnd = .ok it') : it'.Linked cfg (.content, false) msgs := by
  obtain ⟨phase, hsent, hemitted, hdelay, pkt, hpkt, rfl, event, cs, cls, hmsg⟩ := h.sent
  obtain ⟨msg, hborrow, hit⟩ := bind_eq_ok.mp hit
  rw [hmsg] at hborrow
  cases hborrow
  cases addMsgToQueue_eq hit
  refine ⟨⟨.inside pkt, ?_, hemitted, .inr ⟨hdelay, pkt, hpkt, rfl⟩⟩, h.pkt, h.skip⟩
  rw [← List.append_assoc]
  exact hsent.concat rfl (if_pos rfl)

theorem Linked.handlePktEnd (h : it.Linked cfg (.content, false) msgs)
    (hit : it.handlePktEnd cfg = .ok it') : it'.Linked cfg (.outside, false) msgs := by
  obtain ⟨-, -, hit⟩ := bind_eq_ok.mp hit
  obtain ⟨it₁, hdelayed, hit⟩ := bind_eq_ok.mp hit
  obtain ⟨h, hdelay, -⟩ := h.emitDelayed hdelayed
  obtain ⟨hemitted, pkt, hpkt, hsent⟩ := h.inside hdelay
  obtain ⟨pkt', hborrow, hit⟩ := bind_eq_ok.mp hit
  rw [hpkt] at hborrow
  cases hborrow
  obtain ⟨vals, -, hit⟩ := bind_eq_ok.mp hit
  obtain ⟨-, -, hit⟩ := bind_eq_ok.mp hit
  cases addMsgToQueue_eq hit
  refine ⟨⟨.outside, ?_, hdelay, (if_pos hemitted).symm⟩, fun _ hnone => (by cases hnone), h.skip⟩
  rw [← List.append_assoc]
  exact hsent.concat (congrArg some (h.pkt pkt hpkt).1) (if_pos rfl)

theorem handleItem_inner (h : isInner item = true) (hit : it.handleItem cfg item = .ok it') :
    it' = it := by
  have hmap {x : Except MsgExc Unit} (hx : (x.map fun _ => it) = .ok it') : it' = it := by
    cases x <;> cases hx
    rfl
  cases item with
  | pktBegin | pktEnd | scopeBegin | scopeEnd | eventRecordEnd | dataStreamInfo | pktInfo
  | eventRecordInfo => cases h
  | pktContentEnd | pktMagicNumber => exact hmap hit
  | metadataStreamUuid uuid =>
    obtain ⟨_, -, hit⟩ := bind_eq_ok.mp hit
    exact hmap hit
  | _ => exact (Except.ok.inj hit).symm

theorem tryHandleItem_eq (h : it.skipItemsUntilScopeEndItem = false) :
    it.tryHandleItem cfg item = it.handleItem cfg item := by
  cases item <;> simp [tryHandleItem, h]

theorem Linked.handle {place place' : Stage × Bool} (h : it.Linked cfg place msgs)
    (hfollows : Follows place item place') (hit : it.tryHandleItem cfg item = .ok it') :
    it'.Linked cfg place' msgs := by
  -- no item is skipped out of a scope
  have hhandle (hplace : place.2 = false) : it.handleItem cfg item = .ok it' := by
    rw [← hit, tryHandleItem_eq]
    by_contra hskip
    rw [h.skip (by simpa using hskip)] at hplace
    cases hplace
  cases hfollows with
  | pktBegin =>
    obtain ⟨_, hok, hit⟩ := bind_eq_ok.mp (hhandle rfl)
    cases hit
    refine ⟨h.sent, fun pkt hpkt => ?_, h.skip⟩
    cases hpkt
    exact ⟨rfl, ((Bool.and_eq_true _ _).mp (require_eq_ok hok)).2⟩
  | dataStreamInfo => exact h.handleDataStreamInfo (hhandle rfl)
  | pktInfo => exact h.handlePktInfo (hhandle rfl)
  | eventRecordInfo => exact h.handleEventRecordInfo (hhandle rfl)
  | eventRecordEnd => exact h.handleEventRecordEnd (hhandle rfl)
  | pktEnd => exact h.handlePktEnd (hhandle rfl)
  | scopeBegin stage scope =>
    obtain ⟨skip, -, hit⟩ := bind_eq_ok.mp (hhandle rfl)
    cases hit
    exact ⟨h.sent, h.pkt, fun _ => rfl⟩
  | scopeEnd =>
    cases hit
    exact ⟨h.sent, h.pkt, fun hskip => by cases hskip⟩
  | inner _ hinner =>
    have heq : it' = it := by
      cases hskip : it.skipItemsUntilScopeEndItem with
      | false => exact handleItem_inner hinner (tryHandleItem_eq hskip ▸ hit)
      | true =>
        cases item <;> simp_all [tryHandleItem, isInner]
    exact heq ▸ h

end MsgIter

/-! ## Runs -/

/-- The messages returned so far and those of the queue are linked to the agenda of the item sequence
iterator. Without any packet, there's no stream beginning message when the iterator is done. -/
def Sys.Inv (cfg : Config) (msgs : List Msg) (s : Sys) : Prop :=
  if s.isDone then
    if s.msgIter.emittedStreamBeginMsg then Sent cfg.stream msgs .ended
    else msgs = [.streamEnd cfg.stream none]
  else ∃ a, Rel s.itemSeqIter a ∧ TasksReady Fc.hasOpts a.tasks ∧
    s.msgIter.Linked cfg (place a.phase) msgs

section
variable {cfg : Config} {tc : TraceCls} {m : Medium} {msgs : List Msg} {s : Sys}

theorem Linked.ended (h : s.msgIter.Linked cfg (.outside, false) msgs)
    (hqueue : s.msgIter.queue = []) :
    Sys.Inv cfg (msgs ++ [.streamEnd cfg.stream none]) { s with isDone := true } := by
  obtain ⟨phase, hsent, -, rfl⟩ := h.sent
  rw [hqueue, List.append_nil] at hsent
  refine (if_pos rfl).mpr ?_
  split at hsent
  · rename_i hemitted
    exact (if_pos hemitted).mpr (hsent.concat rfl rfl)
  · rename_i hemitted
    rw [hsent.eq_nil]
    exact (if_neg hemitted).mpr rfl

theorem msgReply_inv (h : s.Inv cfg msgs) :
    (msgReply cfg tc m s).Gives fun new s' => s'.Inv cfg (msgs ++ new) := by
  unfold msgReply
  split
  · trivial
  rename_i hdone
  rw [Sys.Inv, if_neg hdone] at h
  obtain ⟨a, hrel, htasks, hlinked⟩ := h
  split
  · rename_i msg queue hqueue
    have hout : msgs ++ s.msgIter.queue = msgs ++ [msg] ++ queue := by simp [hqueue]
    refine (if_neg hdone).mpr ⟨a, hrel, htasks, ⟨?_, hlinked.pkt, hlinked.skip⟩⟩
    exact hout ▸ hlinked.sent
  · rename_i hqueue
    have hsim := reply_sim tc m hrel
    have hgoes := reply_goes tc m htasks
    have hopts := reply_hasOpts tc m htasks
    generalize reply tc m s.itemSeqIter = r, a.reply tc m = r' at hsim hgoes hopts
    cases hsim with
    | «continue» hrel' | again hrel' =>
      refine (if_neg hdone).mpr ⟨_, hrel', hopts, ?_⟩
      rw [List.append_nil]
      exact (show place _ = place _ from hgoes) ▸ hlinked
    | item item hrel' =>
      dsimp only
      cases hit : s.msgIter.tryHandleItem cfg item with
      | ok it =>
        refine (if_neg hdone).mpr ⟨_, hrel', hopts, ?_⟩
        rw [List.append_nil]
        exact hlinked.handle hgoes hit
      | error => trivial
    | ended =>
      rw [show place a.phase = _ from hgoes] at hlinked
      exact Linked.ended hlinked hqueue
    | failed => trivial

theorem inv_of_steps (h : Steps (msgReply cfg tc) (fun _ => P) {} msgs s) : s.Inv cfg msgs := by
  have hinit : Sys.Inv cfg [] {} := by
    refine (if_neg Bool.false_ne_true).mpr
      ⟨⟨{}, [], .init⟩, .phase (.init rfl), .of_ok .nil, ⟨.notBegun, ⟨?_, rfl⟩, rfl, rfl⟩, ?_, ?_⟩
    · simp
    · simp
    · simp
  exact h.invariant (fun _ hs => msgReply_inv hs) hinit

/-- The messages of a data stream which isn't empty -/
def Made (cfg : Config) (tc : TraceCls) (P : Medium → Prop) (msgs : List Msg) : Prop :=
  ∃ s, Steps (msgReply cfg tc) (fun _ => P) {} msgs s ∧ s.isDone = true ∧
    s.msgIter.emittedStreamBeginMsg = true

theorem Made.sent (h : Made cfg tc P msgs) : Sent cfg.stream msgs .ended := by
  obtain ⟨s, hsteps, hdone, hemitted⟩ := h
  have hinv := inv_of_steps hsteps
  rwa [Sys.Inv, if_pos hdone, if_pos hemitted] at hinv

/-- The messages which an iterator makes follow the protocol at any time, also when it must be
retried, and they're a whole sequence once it's done. An empty item sequence gives a stream end
message only. -/
theorem msgIter_follows_protocol (cfg : Config) (tc : TraceCls) (P : Medium → Prop)
    (h : Steps (msgReply cfg tc) (fun _ => P) {} msgs s) :
    if s.isDone && !s.msgIter.emittedStreamBeginMsg then msgs = [.streamEnd cfg.stream none]
    else Extendable msgs ∧ (s.isDone = true → ValidSequence msgs) := by
  have hinv := inv_of_steps h
  unfold Sys.Inv at hinv
  cases hdone : s.isDone with
  | false =>
    rw [if_neg (by simp [hdone])] at hinv
    obtain ⟨_, _, _, hlinked⟩ := hinv
    obtain ⟨phase, hsent, -⟩ := hlinked.sent
    exact ⟨.of_append hsent.extendable, fun hno => (by cases hno)⟩
  | true =>
    rw [if_pos hdone] at hinv
    cases hemitted : s.msgIter.emittedStreamBeginMsg with
    | false => exact (if_neg (by simp [hemitted])).mp hinv
    | true =>
      rw [if_pos hemitted] at hinv
      exact ⟨hinv.extendable, fun _ => hinv.validSequence⟩

end

def packetStream (id : ℕ) : Stream := ⟨id, .withoutSnapshots none true⟩

def paddedConfig (id : ℕ) : Config :=
  ⟨packetStream id, 0, id, none, {}, fun scope _ => scope == .eventRecordPayload⟩

/-- The messages of `paddedMedium`: its single packet has one event record. -/
def paddedMsgs (id : ℕ) : List Msg :=
  [.streamBeginning (packetStream id) none, .packetBeginning ⟨0, packetStream id⟩ 0,
    .event (packetStream id) (some ⟨0, packetStream id⟩) 0 0, .packetEnd ⟨0, packetStream id⟩ 0,
    .streamEnd (packetStream id) none]

theorem paddedMsgs_made (id : Bool) :
    Made (paddedConfig id.toNat) paddedTraceCls (· = paddedMedium) (paddedMsgs id.toNat) := by
  have heval : evalStepsCheck (msgReply (paddedConfig id.toNat) paddedTraceCls) paddedMedium
      (fun _ => true) 31 {} (fun msgs s => decide (msgs = paddedMsgs id.toNat) &&
        (s.isDone && s.msgIter.emittedStreamBeginMsg)) = true := by
    cases id <;> decide +kernel
  obtain ⟨msgs, s, hsteps, hcheck⟩ :=
    evalStepsCheck_sound (P := fun _ => (· = paddedMedium)) (fun _ _ => rfl) heval
  simp only [Bool.and_eq_true, decide_eq_true_eq] at hcheck
  obtain ⟨rfl, hdone⟩ := hcheck
  exact ⟨s, hsteps, hdone⟩

theorem msgIter_follows_protocol_padded : ∃ s,
    Steps (msgReply (paddedConfig 0) paddedTraceCls) (fun _ => (· = paddedMedium)) {} (paddedMsgs 0) s ∧
      ValidSequence (paddedMsgs 0) := by
  obtain ⟨s, hsteps, hdone, hemitted⟩ := paddedMsgs_made false
  have hmsgs := msgIter_follows_protocol _ _ _ hsteps
  rw [if_neg (by simp [hemitted])] at hmsgs
  exact ⟨s, hsteps, hmsgs.2 hdone⟩

end Babeltrace.CtfSrc
