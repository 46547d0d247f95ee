import Babeltrace.AutoSeekRuns
import Babeltrace.Program

/-!
# Trimmer

The message iterator of a `flt.utils.trimmer` component (`trimmer.c`), from its initial seek on. A
whole run outputs what `trim` makes of the upstream messages, whatever the batches, the capacities
and the retries.
-/
namespace Babeltrace.Trimmer
open TraceIr Babeltrace.Graph Excepts

/-- `trimmer_bound`, once it's set -/
structure Bound where
  nsFromOrigin : Int64
  isInfinite : Bool
  deriving DecidableEq, Repr

/-- `trimmer_iterator_stream_state` -/
structure StreamState where
  seenClockSnapshot : Bool
  curPacket : Option Packet
  deriving DecidableEq, Repr

abbrev States := AList fun _ : Stream => StreamState

abbrev Entry := Σ _ : Stream, StreamState

def lacksClockClass : Msg → Bool
  | .event stream _ _ _ | .streamBeginning stream _ | .streamEnd stream _ =>
    stream.cls.defaultClockClass.isNone
  | _ => false

def getMsgNsFromOrigin (msg : Msg) : Except HandleErr (Option ℤ) :=
  if lacksClockClass msg then .error .error
  else
    match msg.clockSnapshot with
    | none => .ok none
    | some cs => (nsOrError cs.1 cs.2).map some

/-! ## End of the streams -/

def endSnapshot (bound : Bound) (entry : Entry) : Except HandleErr (Option UInt64) :=
  if entry.2.seenClockSnapshot then
    match entry.1.cls.defaultClockClass with
    | none => .error .upstream
    | some cc =>
      match cc.valueFromNsFromOrigin bound.nsFromOrigin with
      | none => .error .error
      | some rawValue => .ok (some rawValue)
  else .ok none

def endStream (bound : Bound) (entry : Entry) : Except HandleErr (List Msg) :=
  match endSnapshot bound entry with
  | .error err => .error err
  | .ok rawValue =>
    match entry.2.curPacket with
    | some packet =>
      if entry.2.seenClockSnapshot then
        .ok [.packetEnd packet (rawValue.getD 0), .streamEnd entry.1 rawValue]
      else .error .upstream
    | none => .ok [.streamEnd entry.1 rawValue]

def endStreams (bound : Bound) : List Entry → Except HandleErr (List Msg)
  | [] => .ok []
  | entry :: entries =>
    match endStream bound entry with
    | .error err => .error err
    | .ok msgs => (endStreams bound entries).map (msgs ++ ·)

section

variable (order : List Entry → List Entry) (bound : Bound)

/-- `order` is the order in which the hash table of streams is iterated. -/
def endIteratorStreams (states : States) : Except HandleErr (List Msg) :=
  if bound.isInfinite then .ok [] else endStreams bound (order states.entries)

end

/-! ## Upstream messages -/

/-- It pushes one message, or it reaches the end of the range: `end_iterator_streams()` then ends the
streams of these states. -/
inductive Outcome
  | push (msg : Msg) (states : States)
  | reachedEnd (states : States)

def pastEnd (bound : Bound) (ns : Option ℤ) : Bool :=
  !bound.isInfinite && ns.any fun ns => bound.nsFromOrigin.toInt < ns

/-- The stream classes which `create_stream_state_entry()` accepts -/
def supports (cls : StreamCls) : Bool :=
  cls.defaultClockClass.isSome &&
  (!cls.supportsPackets ||
    cls.packetsHaveBeginningDefaultClockSnapshot && cls.packetsHaveEndDefaultClockSnapshot &&
    (!cls.supportsDiscardedPackets || cls.discardedPacketsHaveDefaultClockSnapshots)) &&
  (!cls.supportsDiscardedEvents || cls.discardedEventsHaveDefaultClockSnapshots)

def createStreamStateEntry (states : States) (stream : Stream) (seenClockSnapshot : Bool) :
    Except HandleErr States :=
  if stream ∈ states then .error .upstream
  else if supports stream.cls then .ok (states.insert stream ⟨seenClockSnapshot, none⟩)
  else .error .error

section

variable (bound : Bound)

/-- A discarded items message which ends after the range is replaced with one which ends with the
range, without a count: `bt_message_discarded_events_create_with_default_clock_snapshots()` requires
that it doesn't begin after its end. -/
def handleDiscarded (states : States) (sstate : StreamState) (items : DiscardedItems)
    (stream : Stream) (beginCs endCs : UInt64) (count : Option ℕ) (ns : Option ℤ) :
    Except HandleErr Outcome :=
  match ns, stream.cls.defaultClockClass with
  | some _, some cc =>
    let states := states.insert stream { sstate with seenClockSnapshot := true }
    match cc.time endCs with
    | none => .error .error
    | some endNs =>
      if pastEnd bound ns then .ok (.reachedEnd states)
      else if pastEnd bound (some endNs) then
        match cc.valueFromNsFromOrigin bound.nsFromOrigin with
        | none => .error .error
        | some endRawValue =>
          if beginCs ≤ endRawValue then
            .ok (.push (.discarded items stream beginCs endRawValue none) states)
          else .error .precondition
      else .ok (.push (.discarded items stream beginCs endCs count) states)
  | _, _ => .error .upstream

/-- `handle_message_with_stream()` for the messages which need the state of their stream -/
def handleMessageWithState (states : States) (sstate : StreamState) (ns : Option ℤ) (msg : Msg) :
    Except HandleErr Outcome :=
  match msg with
  | .event stream _ _ _ =>
    if ns = none then .error .upstream
    else if pastEnd bound ns then .ok (.reachedEnd states)
    else .ok (.push msg (states.insert stream { sstate with seenClockSnapshot := true }))
  | .packetBeginning packet _ =>
    if ns = none ∨ sstate.curPacket.isSome then .error .upstream
    else if pastEnd bound ns then .ok (.reachedEnd states)
    else .ok (.push msg (states.insert packet.stream ⟨true, some packet⟩))
  | .packetEnd packet _ =>
    if ns = none ∨ sstate.curPacket.isNone then .error .upstream
    else if pastEnd bound ns then .ok (.reachedEnd states)
    else .ok (.push msg (states.insert packet.stream ⟨true, none⟩))
  | .discarded items stream beginCs endCs count =>
    handleDiscarded bound states sstate items stream beginCs endCs count ns
  | .streamEnd stream _ =>
    if pastEnd bound ns then .ok (.reachedEnd states)
    else .ok (.push msg (states.erase stream))
  | .streamBeginning _ _ | .inactivity _ _ => .error .upstream

def handleMessageWithStream (states : States) (stream : Stream) (ns : Option ℤ) (msg : Msg) :
    Except HandleErr Outcome :=
  match msg with
  | .streamBeginning _ _ =>
    if pastEnd bound ns then .ok (.reachedEnd states)
    else (createStreamStateEntry states stream ns.isSome).map (.push msg)
  | _ =>
    match states.lookup stream with
    | none => .error .upstream
    | some sstate => handleMessageWithState bound states sstate ns msg

/-- The time of a message without a stream is compared with the one of the bound even when it's
infinite. -/
def handleMessage (states : States) (msg : Msg) : Except HandleErr Outcome :=
  match getMsgNsFromOrigin msg with
  | .error err => .error err
  | .ok ns =>
    match msg.stream with
    | some stream => handleMessageWithStream bound states stream ns msg
    | none =>
      if ns.any fun ns => bound.nsFromOrigin.toInt < ns then .ok (.reachedEnd states)
      else .ok (.push msg states)

end

/-! ## Message iterator -/

inductive Mode
  | trim
  | ending
  | ended
  deriving DecidableEq, Repr

/-- `rest` is what the upstream iterator still has to return. -/
structure Iter where
  mode : Mode
  outputMessages : List Msg
  streamStates : States
  rest : List Msg

def Iter.new (upstream : List Msg) : Iter := ⟨.trim, [], ∅, upstream⟩

/-- `fill_message_array_from_output_messages()` -/
def fillMessageArray (capacity : ℕ) (it : Iter) : Status × List Msg × Iter :=
  (.ok, it.outputMessages.take capacity,
    { it with outputMessages := it.outputMessages.drop capacity })

def stateEnding (capacity : ℕ) (it : Iter) : Status × List Msg × Iter :=
  if it.outputMessages = [] then (.ended, [], { it with mode := .ended })
  else fillMessageArray capacity it

section

variable (order : List Entry → List Entry) (bound : Bound)

/-- The messages of one batch; the flag is `reached_end`. -/
def handleBatch (it : Iter) : List Msg → Except HandleErr (Iter × Bool)
  | [] => .ok (it, false)
  | msg :: msgs =>
    match handleMessage bound it.streamStates msg with
    | .error err => .error err
    | .ok (.reachedEnd states) =>
      (endIteratorStreams order bound states).map fun ends =>
        ({ it with outputMessages := it.outputMessages ++ ends, streamStates := ∅ }, true)
    | .ok (.push msg states) =>
      handleBatch
        { it with outputMessages := it.outputMessages ++ [msg], streamStates := states } msgs

/-- `none` when there aren't enough replies. Nothing follows a failed call. -/
def stateTrim (capacity : ℕ) (it : Iter) : List Reply → Option (Status × List Msg × Iter)
  | [] => if it.outputMessages = [] then none else some (fillMessageArray capacity it)
  | reply :: replies =>
    if it.outputMessages = [] then
      match userNext it.rest reply with
      | none => none
      | some (.ok, msgs, rest) =>
        match handleBatch order bound { it with rest } msgs with
        | .error err => some (err.status, [], it)
        | .ok (it, true) => some (stateEnding capacity { it with mode := .ending })
        | .ok (it, false) => stateTrim capacity it replies
      | some (.ended, _, _) =>
        match endIteratorStreams order bound it.streamStates with
        | .error err => some (err.status, [], it)
        | .ok ends =>
          some (stateEnding capacity
            { it with mode := .ending, outputMessages := ends, streamStates := ∅ })
      | some (status, _, _) => some (status, [], it)
    else some (fillMessageArray capacity it)

/-- `trimmer_msg_iter_next()` -/
def next (capacity : ℕ) (it : Iter) (replies : List Reply) : Option (Status × List Msg × Iter) :=
  match it.mode with
  | .trim => stateTrim order bound capacity it replies
  | .ending => some (stateEnding capacity it)
  | .ended => some (.ended, [], it)

/-! ## Runs -/

/-- Calls of "next" up to the first one which doesn't succeed or ask to try again. The upstream
iterator doesn't fail. -/
inductive Run (upstream : List Msg) : Iter → List Msg → Status → Prop
  | new : Run upstream (.new upstream) [] .ok
  | next {it it' : Iter} {delivered msgs : List Msg} {status status' : Status} {capacity : ℕ}
      {replies : List Reply} (hrun : Run upstream it delivered status)
      (hstatus : status = .ok ∨ status = .again)
      (hreplies : ∀ reply ∈ replies, reply ≠ .error ∧ reply ≠ .memoryError)
      (hnext : Trimmer.next order bound capacity it replies = some (status', msgs, it')) :
      Run upstream it' (delivered ++ msgs) status'

/-- What the messages of upstream become -/
def trim (states : States) : List Msg → Except HandleErr (List Msg)
  | [] => endIteratorStreams order bound states
  | msg :: msgs =>
    match handleMessage bound states msg with
    | .error err => .error err
    | .ok (.reachedEnd states) => endIteratorStreams order bound states
    | .ok (.push msg states) => (trim states msgs).map (msg :: ·)

/-- What the iterator still has to return -/
def Iter.output (it : Iter) : Except HandleErr (List Msg) :=
  match it.mode with
  | .trim => (trim order bound it.streamStates it.rest).map (it.outputMessages ++ ·)
  | .ending | .ended => .ok it.outputMessages

end

section

variable {order : List Entry → List Entry} {bound : Bound} {it it' : Iter} {capacity : ℕ}
variable {msgs : List Msg} {status : Status}

theorem getMsgNsFromOrigin_time {msg : Msg} {ns : Option ℤ} (h : getMsgNsFromOrigin msg = .ok ns) :
    msg.time = ns := by
  unfold getMsgNsFromOrigin at h
  split at h
  · cases h
  · split at h
    · rename_i hcs
      cases h
      rw [Msg.time, hcs, Option.bind_none]
    · rename_i cs hcs
      rw [Msg.time, hcs, Option.bind_some]
      unfold nsOrError at h
      split at h
      · cases h
      · rename_i hns
        cases h
        exact hns

theorem map_append_append {ε : Type} (x : Except ε (List Msg)) (l l' : List Msg) :
    (x.map (l' ++ ·)).map (l ++ ·) = x.map (l ++ l' ++ ·) := by
  cases x <;> simp [Except.map]

theorem map_nil_append {ε : Type} (x : Except ε (List Msg)) : x.map ([] ++ ·) = x := by
  cases x <;> rfl

theorem handleBatch_frame {reachedEnd : Bool}
    (h : handleBatch order bound it msgs = .ok (it', reachedEnd)) :
    it'.mode = it.mode ∧ it'.rest = it.rest := by
  induction msgs generalizing it with
  | nil =>
    cases h
    exact ⟨rfl, rfl⟩
  | cons msg msgs ih =>
    rw [handleBatch] at h
    split at h
    · cases h
    · obtain ⟨ends, -, heq⟩ := map_eq_ok.mp h
      cases heq
      exact ⟨rfl, rfl⟩
    · obtain ⟨hmode, hrest⟩ := ih h
      exact ⟨hmode, hrest⟩

theorem handleBatch_output {rest : List Msg} {reachedEnd : Bool}
    (h : handleBatch order bound it msgs = .ok (it', reachedEnd)) :
    (trim order bound it.streamStates (msgs ++ rest)).map (it.outputMessages ++ ·) =
      if reachedEnd then .ok it'.outputMessages
      else (trim order bound it'.streamStates rest).map (it'.outputMessages ++ ·) := by
  induction msgs generalizing it with
  | nil =>
    cases h
    rfl
  | cons msg msgs ih =>
    rw [handleBatch] at h
    rw [List.cons_append, trim]
    split at h
    · cases h
    · obtain ⟨ends, hends, heq⟩ := map_eq_ok.mp h
      cases heq
      rw [hends]
      rfl
    · rename_i msg' states _
      rw [← ih h]
      exact map_append_append _ it.outputMessages [msg']

theorem fillMessageArray_output {it' : Iter} (h : fillMessageArray capacity it = (status, msgs, it')) :
    it.output order bound = (it'.output order bound).map (msgs ++ ·) := by
  cases h
  cases hmode : it.mode with
  | trim => simp only [Iter.output, hmode, map_append_append, List.take_append_drop]
  | ending | ended => simp only [Iter.output, hmode, Except.map, List.take_append_drop]

theorem stateEnding_output (hmode : it.mode = .ending)
    (h : stateEnding capacity it = (status, msgs, it')) :
    it.output order bound = (it'.output order bound).map (msgs ++ ·) := by
  unfold stateEnding at h
  split at h
  · cases h
    simp only [Iter.output, hmode]
    rfl
  · exact fillMessageArray_output h

theorem stateTrim_output {replies : List Reply} (hmode : it.mode = .trim)
    (h : stateTrim order bound capacity it replies = some (status, msgs, it')) :
    it.output order bound = (it'.output order bound).map (msgs ++ ·) := by
  induction replies generalizing it with
  | nil =>
    rw [stateTrim] at h
    split at h
    · cases h
    · exact fillMessageArray_output (Option.some.inj h)
  | cons reply replies ih =>
    rw [stateTrim] at h
    split at h
    · rename_i hempty
      split at h
      · cases h
      · rename_i batch rest hnext
        have hrest := userNext_ok hnext
        split at h
        · cases h
          exact (map_nil_append _).symm
        · rename_i it₁ hbatch
          refine Eq.trans ?_ (stateEnding_output rfl (Option.some.inj h))
          simp only [Iter.output, hmode, hrest]
          exact handleBatch_output hbatch
        · rename_i it₁ hbatch
          obtain ⟨hmode₁, hrest₁⟩ := handleBatch_frame hbatch
          replace hmode₁ : it₁.mode = .trim := hmode₁.trans hmode
          rw [← ih hmode₁ h]
          simp only [Iter.output, hmode, hmode₁, hrest, hrest₁]
          exact handleBatch_output hbatch
      · rename_i hnext
        obtain ⟨-, hrest, -⟩ := userNext_ended hnext
        split at h
        · cases h
          exact (map_nil_append _).symm
        · rename_i ends hends
          refine Eq.trans ?_ (stateEnding_output rfl (Option.some.inj h))
          simp only [Iter.output, hmode, hrest, hempty, trim, hends]
          rfl
      · cases h
        exact (map_nil_append _).symm
    · exact fillMessageArray_output (Option.some.inj h)

theorem next_output {replies : List Reply}
    (h : next order bound capacity it replies = some (status, msgs, it')) :
    it.output order bound = (it'.output order bound).map (msgs ++ ·) := by
  unfold next at h
  split at h
  · rename_i hmode
    exact stateTrim_output hmode h
  · rename_i hmode
    exact stateEnding_output hmode (Option.some.inj h)
  · cases h
    exact (map_nil_append _).symm

variable {upstream delivered : List Msg}

theorem Run.trim_eq (hrun : Run order bound upstream it delivered status) :
    trim order bound ∅ upstream = (it.output order bound).map (delivered ++ ·) := by
  induction hrun with
  | new => exact (map_nil_append _).symm.trans (map_nil_append _).symm
  | next _ _ _ hnext ih => rw [ih, next_output hnext, map_append_append]

end

end Babeltrace.Trimmer
