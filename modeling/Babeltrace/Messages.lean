import Babeltrace.Clock
import Babeltrace.KeyedFold

/-!
# Messages and their protocol

The messages of a graph, and the sequence checks of a message iterator in developer mode
(`iterator.c`), of which the per-stream state is equivalent to a small automaton (`Phase`).
-/
namespace Babeltrace.Graph
open TraceIr KeyedFold

inductive DiscardedItems
  | events
  | packets
  deriving DecidableEq, Repr

/-- `bt_stream_class`, with the preconditions of its setters -/
structure StreamCls where
  defaultClockClass : Option ClockClass
  supportsPackets : Bool
  packetsHaveBeginningDefaultClockSnapshot : Bool
  packetsHaveEndDefaultClockSnapshot : Bool
  supportsDiscardedEvents : Bool
  discardedEventsHaveDefaultClockSnapshots : Bool
  supportsDiscardedPackets : Bool
  discardedPacketsHaveDefaultClockSnapshots : Bool
  packets_beginning : packetsHaveBeginningDefaultClockSnapshot →
    supportsPackets ∧ defaultClockClass.isSome := by decide
  packets_end : packetsHaveEndDefaultClockSnapshot →
    supportsPackets ∧ defaultClockClass.isSome := by decide
  discarded_events : discardedEventsHaveDefaultClockSnapshots →
    supportsDiscardedEvents ∧ defaultClockClass.isSome := by decide
  discarded_packets : discardedPacketsHaveDefaultClockSnapshots →
    supportsDiscardedPackets ∧ defaultClockClass.isSome := by decide
  packets_of_discarded : supportsDiscardedPackets → supportsPackets := by decide
  deriving DecidableEq, Repr

/-- A class without discarded items, and of which the packets have no clock snapshots -/
def StreamCls.withoutSnapshots (defaultClockClass : Option ClockClass) (supportsPackets : Bool) :
    StreamCls where
  defaultClockClass := defaultClockClass
  supportsPackets := supportsPackets
  packetsHaveBeginningDefaultClockSnapshot := false
  packetsHaveEndDefaultClockSnapshot := false
  supportsDiscardedEvents := false
  discardedEventsHaveDefaultClockSnapshots := false
  supportsDiscardedPackets := false
  discardedPacketsHaveDefaultClockSnapshots := false
  packets_beginning := by simp
  packets_end := by simp
  discarded_events := by simp
  discarded_packets := by simp
  packets_of_discarded := by simp

def StreamCls.supportsDiscarded (cls : StreamCls) : DiscardedItems → Bool
  | .events => cls.supportsDiscardedEvents
  | .packets => cls.supportsDiscardedPackets

def StreamCls.discardedHaveDefaultClockSnapshots (cls : StreamCls) : DiscardedItems → Bool
  | .events => cls.discardedEventsHaveDefaultClockSnapshots
  | .packets => cls.discardedPacketsHaveDefaultClockSnapshots

/-- `id` stands for the address of the stream object. -/
structure Stream where
  id : ℕ
  cls : StreamCls
  deriving DecidableEq, Repr

structure Packet where
  id : ℕ
  stream : Stream
  deriving DecidableEq, Repr

/-- `bt_message`. It has its snapshots (`cs`) exactly when the stream class says so (its values mean
nothing otherwise), while it's known or not for each stream message. -/
inductive Msg
  | streamBeginning (stream : Stream) (cs : Option UInt64)
  | streamEnd (stream : Stream) (cs : Option UInt64)
  | packetBeginning (packet : Packet) (cs : UInt64)
  | packetEnd (packet : Packet) (cs : UInt64)
  | event (stream : Stream) (packet : Option Packet) (event : ℕ) (cs : UInt64)
  | discarded (items : DiscardedItems) (stream : Stream) (beginCs endCs : UInt64)
      (count : Option ℕ)
  | inactivity (clockClass : ClockClass) (cs : UInt64)
  deriving DecidableEq, Repr

/-- `get_stream_from_msg()` -/
def Msg.stream : Msg → Option Stream
  | .streamBeginning stream _ | .streamEnd stream _ => some stream
  | .packetBeginning packet _ | .packetEnd packet _ => some packet.stream
  | .event stream _ _ _ => some stream
  | .discarded _ stream _ _ _ => some stream
  | .inactivity _ _ => none

def Msg.clockSnapshot : Msg → Option (ClockClass × UInt64)
  | .streamBeginning stream cs | .streamEnd stream cs =>
    cs.bind fun cs => stream.cls.defaultClockClass.map (·, cs)
  | .packetBeginning packet cs =>
    if packet.stream.cls.packetsHaveBeginningDefaultClockSnapshot then
      packet.stream.cls.defaultClockClass.map (·, cs)
    else none
  | .packetEnd packet cs =>
    if packet.stream.cls.packetsHaveEndDefaultClockSnapshot then
      packet.stream.cls.defaultClockClass.map (·, cs)
    else none
  | .event stream _ _ cs => stream.cls.defaultClockClass.map (·, cs)
  | .discarded items stream beginCs _ _ =>
    if stream.cls.discardedHaveDefaultClockSnapshots items then
      stream.cls.defaultClockClass.map (·, beginCs)
    else none
  | .inactivity clockClass cs => some (clockClass, cs)

def Msg.time (msg : Msg) : Option ℤ := msg.clockSnapshot.bind fun cs => cs.1.time cs.2

/-- `bt_message_type`, without message iterator inactivity messages, which have no stream -/
inductive MsgType
  | streamBeginning
  | streamEnd
  | event
  | packetBeginning
  | packetEnd
  | discarded (items : DiscardedItems)
  deriving DecidableEq, Repr

def Msg.type : Msg → Option MsgType
  | .streamBeginning _ _ => some .streamBeginning
  | .streamEnd _ _ => some .streamEnd
  | .packetBeginning _ _ => some .packetBeginning
  | .packetEnd _ _ => some .packetEnd
  | .event _ _ _ _ => some .event
  | .discarded items _ _ _ _ => some (.discarded items)
  | .inactivity _ _ => none

/-! ## Sequence checks -/

def InOrder (msgs : List Msg) : Prop := (msgs.filterMap Msg.time).Pairwise (· ≤ ·)

/-- `per_stream_state`; the bit mask of expected message types is a list. -/
structure PerStreamState where
  curPacket : Option Packet
  expectedMsgTypes : List MsgType
  deriving DecidableEq, Repr

/-- `get_per_stream_state()` without messages yet -/
def PerStreamState.new : PerStreamState := ⟨none, [.streamBeginning]⟩

def msgTypesIf (cond : Bool) (types : List MsgType) : List MsgType := if cond then types else []

def updateExpectedMsgType (cls : StreamCls) (state : PerStreamState) : MsgType → List MsgType
  | .streamBeginning =>
    [.streamEnd] ++
    (if cls.supportsPackets then
      [.packetBeginning] ++ msgTypesIf cls.supportsDiscardedPackets [.discarded .packets]
    else [.event]) ++
    msgTypesIf cls.supportsDiscardedEvents [.discarded .events]
  | .streamEnd => []
  | .event =>
    [.event] ++ (if cls.supportsPackets then [.packetEnd] else [.streamEnd]) ++
    msgTypesIf cls.supportsDiscardedEvents [.discarded .events]
  | .packetBeginning =>
    [.event, .packetEnd] ++ msgTypesIf cls.supportsDiscardedEvents [.discarded .events]
  | .packetEnd =>
    [.packetBeginning, .streamEnd] ++
    msgTypesIf cls.supportsDiscardedEvents [.discarded .events] ++
    msgTypesIf cls.supportsDiscardedPackets [.discarded .packets]
  | .discarded .events =>
    [.discarded .events] ++
    if state.curPacket.isSome then [.event, .packetEnd]
    else
      [.streamEnd] ++
      if cls.supportsPackets then
        [.packetBeginning] ++ msgTypesIf cls.supportsDiscardedPackets [.discarded .packets]
      else [.event]
  | .discarded .packets =>
    [.discarded .packets, .packetBeginning, .streamEnd] ++
    msgTypesIf cls.supportsDiscardedEvents [.discarded .events]

/-- `assert_post_dev_expected_sequence()` -/
def expectedSequence (stream : Stream) (state : PerStreamState) (type : MsgType) :
    Option PerStreamState :=
  if type ∈ state.expectedMsgTypes then
    some { state with expectedMsgTypes := updateExpectedMsgType stream.cls state type }
  else none

/-- `assert_post_dev_expected_packet()` -/
def expectedPacket (state : PerStreamState) : Msg → Option PerStreamState
  | .event _ packet _ _ => if packet = state.curPacket then some state else none
  | .packetBeginning packet _ =>
    if state.curPacket = none then some { state with curPacket := some packet } else none
  | .packetEnd packet _ =>
    if state.curPacket = some packet then some { state with curPacket := none } else none
  | _ => some state

/-- `none` is a failed postcondition. -/
def checkMsg (stream : Stream) (state : Option PerStreamState) (msg : Msg) :
    Option (Option PerStreamState) := do
  let type ← msg.type
  let state ← expectedSequence stream (state.getD .new) type
  let state ← expectedPacket state msg
  return some state

/-- `assert_post_dev_next()` accepts the messages, and then the end. -/
def FollowsProtocol (msgs : List Msg) : Prop :=
  ∃ states, msgs.foldlM (keyedStep Msg.stream checkMsg) (fun _ => none) = some states ∧
    ∀ stream, ∀ state ∈ states stream, state.expectedMsgTypes = []

/-! ## Phases of a stream -/

inductive Phase
  | notBegun
  | outside
  | inside (packet : Packet)
  | ended
  deriving DecidableEq, Repr

def Phase.step (cls : StreamCls) : Phase → Msg → Option Phase
  | .notBegun, .streamBeginning _ _ => some .outside
  | .outside, .streamEnd _ _ => some .ended
  | .outside, .packetBeginning packet _ =>
    if cls.supportsPackets then some (.inside packet) else none
  | .outside, .event _ packet _ _ =>
    if ¬cls.supportsPackets ∧ packet = none then some .outside else none
  | .outside, .discarded items _ _ _ _ =>
    if cls.supportsDiscarded items then some .outside else none
  | .inside packet, .packetEnd packet' _ => if packet' = packet then some .outside else none
  | .inside packet, .event _ packet' _ _ =>
    if packet' = some packet then some (.inside packet) else none
  | .inside packet, .discarded .events _ _ _ _ =>
    if cls.supportsDiscardedEvents then some (.inside packet) else none
  | _, _ => none

def Phase.packet : Phase → Option Packet
  | .inside packet => some packet
  | _ => none

def Phase.expected (cls : StreamCls) : Phase → MsgType → Bool
  | .notBegun, .streamBeginning => true
  | .outside, .streamEnd => true
  | .outside, .packetBeginning => cls.supportsPackets
  | .outside, .event => !cls.supportsPackets
  | .outside, .discarded items => cls.supportsDiscarded items
  | .inside _, .packetEnd => true
  | .inside _, .event => true
  | .inside _, .discarded .events => cls.supportsDiscardedEvents
  | _, _ => false

/-- The state of the checks says where the stream is. -/
structure Phase.Is (cls : StreamCls) (phase : Phase) (state : PerStreamState) : Prop where
  packet : state.curPacket = phase.packet
  expected : ∀ type, type ∈ state.expectedMsgTypes ↔ phase.expected cls type = true
  supports : phase.packet.isSome → cls.supportsPackets

@[simp] theorem mem_msgTypesIf {cond : Bool} {types : List MsgType} {type : MsgType} :
    type ∈ msgTypesIf cond types ↔ cond = true ∧ type ∈ types := by
  cases cond <;> simp [msgTypesIf]

section

variable (cls : StreamCls) (state : PerStreamState)

attribute [local simp] updateExpectedMsgType Phase.expected StreamCls.supportsDiscarded

theorem mem_update_streamBeginning (type : MsgType) :
    type ∈ updateExpectedMsgType cls state .streamBeginning ↔
      Phase.outside.expected cls type = true := by
  have hdiscarded := cls.packets_of_discarded
  cases hp : cls.supportsPackets <;> rcases type with _ | _ | _ | _ | _ | (_ | _) <;>
    simp_all

theorem mem_update_streamEnd (type : MsgType) :
    type ∈ updateExpectedMsgType cls state .streamEnd ↔ Phase.ended.expected cls type = true := by
  simp

theorem mem_update_packetBeginning (packet : Packet) (type : MsgType) :
    type ∈ updateExpectedMsgType cls state .packetBeginning ↔
      (Phase.inside packet).expected cls type = true := by
  rcases type with _ | _ | _ | _ | _ | (_ | _) <;> simp

theorem mem_update_packetEnd (hpackets : cls.supportsPackets = true) (type : MsgType) :
    type ∈ updateExpectedMsgType cls state .packetEnd ↔
      Phase.outside.expected cls type = true := by
  rcases type with _ | _ | _ | _ | _ | (_ | _) <;>
    simp [hpackets]

theorem mem_update_event_inside (hpackets : cls.supportsPackets = true) (packet : Packet)
    (type : MsgType) :
    type ∈ updateExpectedMsgType cls state .event ↔
      (Phase.inside packet).expected cls type = true := by
  rcases type with _ | _ | _ | _ | _ | (_ | _) <;>
    simp [hpackets]

theorem mem_update_event_outside (hpackets : cls.supportsPackets = false) (type : MsgType) :
    type ∈ updateExpectedMsgType cls state .event ↔ Phase.outside.expected cls type = true := by
  have hdiscarded := cls.packets_of_discarded
  rcases type with _ | _ | _ | _ | _ | (_ | _) <;>
    simp_all

theorem mem_update_discarded_inside {packet : Packet} (hpacket : state.curPacket = some packet)
    (hsupports : cls.supportsDiscardedEvents = true) (type : MsgType) :
    type ∈ updateExpectedMsgType cls state (.discarded .events) ↔
      (Phase.inside packet).expected cls type = true := by
  rcases type with _ | _ | _ | _ | _ | (_ | _) <;>
    simp [hpacket, hsupports]

theorem mem_update_discarded_outside (hpacket : state.curPacket = none) {items : DiscardedItems}
    (hsupports : cls.supportsDiscarded items = true) (type : MsgType) :
    type ∈ updateExpectedMsgType cls state (.discarded items) ↔
      Phase.outside.expected cls type = true := by
  have hdiscarded := cls.packets_of_discarded
  cases items <;> cases hp : cls.supportsPackets <;>
    rcases type with _ | _ | _ | _ | _ | (_ | _) <;>
    simp_all

end

theorem Phase.is_notBegun (cls : StreamCls) : Phase.notBegun.Is cls .new := by
  refine ⟨rfl, fun type => ?_, fun h => absurd h (by decide)⟩
  cases type <;> simp [PerStreamState.new, Phase.expected]

section

variable {stream : Stream} {state : Option PerStreamState} {phase phase' : Phase} {msg : Msg}
  {type : MsgType}

theorem checkMsg_of_mem (htype : msg.type = some type)
    (hmem : type ∈ (state.getD .new).expectedMsgTypes) :
    checkMsg stream state msg =
      (expectedPacket { state.getD .new with
        expectedMsgTypes := updateExpectedMsgType stream.cls (state.getD .new) type } msg).map
        some := by
  simp only [checkMsg, htype, expectedSequence, hmem, if_true, Option.bind_eq_bind,
    Option.bind_some, Option.pure_def]
  cases expectedPacket _ msg <;> rfl

theorem checkMsg_of_notMem (htype : msg.type = some type)
    (hmem : type ∉ (state.getD .new).expectedMsgTypes) : checkMsg stream state msg = none := by
  simp only [checkMsg, htype, expectedSequence, hmem, if_false, Option.bind_eq_bind,
    Option.bind_some, Option.bind_none]

theorem Phase.Is.accept (h : phase.Is stream.cls (state.getD .new))
    (hstep : phase.step stream.cls msg = some phase') :
    ∃ state', checkMsg stream state msg = some (some state') ∧ phase'.Is stream.cls state' := by
  have hexpected := h.expected
  have hpacket := h.packet
  have hsupports := h.supports
  cases phase with
  | notBegun =>
    cases msg <;> simp only [Phase.step, reduceCtorEq, Option.some.injEq] at hstep
    subst hstep
    rw [checkMsg_of_mem rfl ((hexpected _).mpr rfl)]
    exact ⟨_, rfl, hpacket, mem_update_streamBeginning _ (state.getD .new),
      fun h => absurd h (by decide)⟩
  | ended => cases msg <;> simp only [Phase.step, reduceCtorEq] at hstep
  | outside =>
    cases msg <;> simp only [Phase.step, reduceCtorEq, Option.some.injEq,
      Option.ite_none_right_eq_some] at hstep
    case streamEnd =>
      subst hstep
      rw [checkMsg_of_mem rfl ((hexpected _).mpr rfl)]
      exact ⟨_, rfl, hpacket, mem_update_streamEnd _ (state.getD .new), fun h => absurd h (by decide)⟩
    case packetBeginning packet cs =>
      obtain ⟨hcls, rfl⟩ := hstep
      rw [checkMsg_of_mem rfl ((hexpected .packetBeginning).mpr hcls)]
      simp only [expectedPacket, hpacket, Phase.packet, if_true]
      exact ⟨_, rfl, rfl, mem_update_packetBeginning _ (state.getD .new) packet,
        fun _ => hcls⟩
    case event _ packet _ _ =>
      obtain ⟨⟨hcls, rfl⟩, rfl⟩ := hstep
      rw [Bool.not_eq_true] at hcls
      rw [checkMsg_of_mem rfl ((hexpected _).mpr (by simp [Phase.expected, hcls]))]
      simp only [expectedPacket, hpacket, Phase.packet, if_true]
      exact ⟨_, rfl, rfl, mem_update_event_outside _ (state.getD .new) hcls,
        fun h => absurd h (by decide)⟩
    case discarded items _ _ _ _ =>
      obtain ⟨hcls, rfl⟩ := hstep
      rw [checkMsg_of_mem rfl ((hexpected (.discarded items)).mpr hcls)]
      exact ⟨_, rfl, hpacket, mem_update_discarded_outside _ _ hpacket hcls,
        fun h => absurd h (by decide)⟩
  | inside packet =>
    have hcls := hsupports rfl
    cases msg <;> try simp only [Phase.step, reduceCtorEq] at hstep
    case packetEnd packet' _ =>
      obtain ⟨rfl, heq⟩ := Option.ite_none_right_eq_some.mp hstep
      cases heq
      rw [checkMsg_of_mem rfl ((hexpected _).mpr rfl)]
      simp only [expectedPacket, hpacket, Phase.packet, if_true]
      exact ⟨_, rfl, rfl, mem_update_packetEnd _ (state.getD .new) hcls,
        fun h => absurd h (by decide)⟩
    case event _ packet' _ _ =>
      obtain ⟨rfl, heq⟩ := Option.ite_none_right_eq_some.mp hstep
      cases heq
      rw [checkMsg_of_mem rfl ((hexpected _).mpr rfl)]
      simp only [expectedPacket, hpacket, Phase.packet, if_true]
      exact ⟨_, rfl, rfl, mem_update_event_inside _ (state.getD .new) hcls packet, fun _ => hcls⟩
    case discarded items _ _ _ _ =>
      cases items with
      | packets => cases hstep
      | events =>
        obtain ⟨hitems, heq⟩ := Option.ite_none_right_eq_some.mp hstep
        cases heq
        rw [checkMsg_of_mem rfl ((hexpected (.discarded .events)).mpr hitems)]
        exact ⟨_, rfl, hpacket, mem_update_discarded_inside _ _ hpacket hitems, fun _ => hcls⟩

theorem Phase.Is.reject (h : phase.Is stream.cls (state.getD .new))
    (hstep : phase.step stream.cls msg = none) : checkMsg stream state msg = none := by
  cases htype : msg.type with
  | none => simp [checkMsg, htype]
  | some type =>
    by_cases hmem : type ∈ (state.getD .new).expectedMsgTypes
    · -- a message of an expected type which isn't of the current packet
      rw [checkMsg_of_mem htype hmem, Option.map_eq_none_iff]
      rw [h.expected] at hmem
      have hpacket := h.packet
      cases phase with
      | notBegun | ended =>
        cases msg <;> cases htype <;> simp_all [Phase.step, Phase.expected]
      | outside => 
        cases msg <;> cases htype <;>
          simp_all [Phase.step, Phase.expected, expectedPacket, Phase.packet]
      | inside packet =>
        cases msg with
        | discarded items => cases items <;> cases htype <;> simp_all [Phase.step, Phase.expected]
        | packetEnd packet' =>
          have hne : ¬packet' = packet := fun heq => by simp [Phase.step, heq] at hstep
          simp only [expectedPacket, hpacket, Phase.packet, Option.some.injEq, Ne.symm hne, if_false]
        | event => 
          cases htype
          simp_all [Phase.step, expectedPacket, Phase.packet]
        | _ => cases htype <;> simp_all [Phase.expected]
    · exact checkMsg_of_notMem htype hmem

theorem foldlM_checkMsg (state : Option PerStreamState) (msgs : List Msg)
    (h : phase.Is stream.cls (state.getD .new)) :
    (∀ state', msgs.foldlM (checkMsg stream) state = some state' →
      ∃ phase', msgs.foldlM (Phase.step stream.cls) phase = some phase' ∧
        phase'.Is stream.cls (state'.getD .new) ∧ (state' = none → msgs = [])) ∧
    (msgs.foldlM (checkMsg stream) state = none →
      msgs.foldlM (Phase.step stream.cls) phase = none) := by
  induction msgs generalizing phase state with
  | nil =>
    refine ⟨fun state' heq => ?_, fun heq => ?_⟩
    · cases heq
      exact ⟨phase, rfl, h, fun _ => rfl⟩
    · cases heq
  | cons msg msgs ih =>
    simp only [List.foldlM_cons, Option.bind_eq_bind]
    cases hstep : phase.step stream.cls msg with
    | none =>
      rw [h.reject hstep]
      simp
    | some phase' =>
      obtain ⟨state', hcheck, hstate'⟩ := h.accept hstep
      rw [hcheck, Option.bind_some, Option.bind_some]
      obtain ⟨hsome, hnone⟩ := ih (some state') hstate'
      refine ⟨fun state'' heq => ?_, hnone⟩
      obtain ⟨phase'', hphase, his, hnil⟩ := hsome state'' heq
      refine ⟨phase'', hphase, his, fun hempty => ?_⟩
      -- the state of a stream which has messages isn't removed
      rw [hnil hempty] at heq
      cases heq
      cases hempty

theorem Phase.Is.expected_eq_nil {st : PerStreamState} (h : phase.Is stream.cls st) :
    st.expectedMsgTypes = [] ↔ phase = .ended := by
  have hexpected := h.expected
  rw [List.eq_nil_iff_forall_not_mem]
  simp only [hexpected, Bool.not_eq_true]
  cases phase with
  | notBegun => simpa using ⟨.streamBeginning, rfl⟩
  | outside => simpa using ⟨.streamEnd, rfl⟩
  | inside packet => simpa using ⟨.packetEnd, rfl⟩
  | ended => simp [Phase.expected]

end

theorem followsProtocol_iff (msgs : List Msg) :
    FollowsProtocol msgs ↔
      ∀ stream, ofKey Msg.stream stream msgs = [] ∨
        (ofKey Msg.stream stream msgs).foldlM (Phase.step stream.cls) .notBegun =
          some .ended := by
  refine (exists_foldlM_keyedStep msgs (fun _ => none)
    fun _ (state : Option PerStreamState) => ∀ st ∈ state, st.expectedMsgTypes = []).trans ?_
  refine forall_congr' fun stream => ?_
  obtain ⟨hsome, hnone⟩ := foldlM_checkMsg none (ofKey Msg.stream stream msgs)
    (Phase.is_notBegun stream.cls)
  constructor
  · rintro ⟨state, hstate, hended⟩
    obtain ⟨phase, hphase, his, hnil⟩ := hsome state hstate
    cases state with
    | none => exact .inl (hnil rfl)
    | some st =>
      have := his.expected_eq_nil.mp (hended st rfl)
      exact .inr (this ▸ hphase)
  · rintro (hnil | hphase)
    · rw [hnil]
      exact ⟨none, rfl, fun _ h => absurd h (by simp)⟩
    · cases hstate : (ofKey Msg.stream stream msgs).foldlM (checkMsg stream) none with
      | none =>
        rw [hnone hstate] at hphase
        cases hphase
      | some state =>
        obtain ⟨phase, hphase', his, -⟩ := hsome state hstate
        rw [hphase] at hphase'
        cases hphase'
        refine ⟨state, rfl, fun st hst => ?_⟩
        cases hst
        exact his.expected_eq_nil.mpr rfl

theorem followsProtocol_iff_of_stream (stream : Stream) {msgs : List Msg} (hne : msgs ≠ [])
    (hstream : ∀ msg ∈ msgs, msg.stream = some stream) :
    FollowsProtocol msgs ↔ msgs.foldlM (Phase.step stream.cls) .notBegun = some .ended := by
  have hself : ofKey Msg.stream stream msgs = msgs :=
    List.filter_eq_self.mpr fun msg hmsg => by simp [hstream msg hmsg]
  rw [followsProtocol_iff]
  constructor
  · intro h
    have := h stream
    rw [hself] at this
    exact this.resolve_left hne
  · intro h stream'
    by_cases heq : stream' = stream
    · rw [heq, hself]
      exact .inr h
    · refine .inl (List.filter_eq_nil_iff.mpr fun msg hmsg => ?_)
      rw [hstream msg hmsg]
      simpa using Ne.symm heq

end Babeltrace.Graph
