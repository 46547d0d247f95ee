import Mathlib
import Babeltrace.Messages

/-!
# Automatic seeking of a message iterator

Without a seeking method, `bt_message_iterator_seek_ns_from_origin()` (`iterator.c`) seeks the
beginning, fast-forwards, recreates the beginnings which were skipped, and installs
`post_auto_seek_next()` until its queue is empty. The user methods return the messages of a fixed
list, in batches and with statuses which the environment chooses (`Reply`).
-/
namespace Babeltrace.Graph
open TraceIr

/-- Failed assertions, and what's undefined without them -/
inductive Fault
  | emptyQueue
  | savedNext
  | upstream
  | precondition
  deriving DecidableEq, Repr

/-- `bt_func_status` -/
inductive Status
  | ok
  | again
  | ended
  | error
  | memoryError
  | fault (fault : Fault)
  deriving DecidableEq, Repr

inductive HandleErr
  | error
  | upstream
  | precondition
  deriving DecidableEq, Repr

def HandleErr.status : HandleErr → Status
  | .error => .error
  | .upstream => .fault .upstream
  | .precondition => .fault .precondition

/-! ## Fast-forward -/

inductive AutoSeekStep
  | streamBegan
  | packetBegan (packet : Packet)
  deriving DecidableEq, Repr

structure AutoSeekStreamState where
  state : AutoSeekStep
  seenClockSnapshot : Bool
  deriving DecidableEq, Repr

abbrev StreamStates := AList fun _ : Stream => AutoSeekStreamState

abbrev StreamEntry := Σ _ : Stream, AutoSeekStreamState

/-- What `auto_seek_handle_message()` does with a message -/
inductive Verdict
  | skip
  | push (msg : Msg) (gotFirst : Bool)
  deriving DecidableEq, Repr

/-- `bt_clock_snapshot_get_ns_from_origin()` -/
def nsOrError (cc : ClockClass) (value : UInt64) : Except HandleErr ℤ :=
  match cc.time value with
  | none => .error .error
  | some ns => .ok ns

def verdictOf (t : Int64) (msg : Msg) (cs : ClockClass × UInt64) : Except HandleErr Verdict := do
  let ns ← nsOrError cs.1 cs.2
  return if t.toInt ≤ ns then .push msg true else .skip

/-- A discarded items message which begins before the requested time but doesn't end before it gets
an unknown count. -/
def verdictOfDiscarded (t : Int64) (items : DiscardedItems) (stream : Stream)
    (beginCs endCs : UInt64) (count : Option ℕ) (cc : ClockClass) : Except HandleErr Verdict := do
  let ns ← nsOrError cc beginCs
  if t.toInt ≤ ns then return .push (.discarded items stream beginCs endCs count) true
  else
    let ns ← nsOrError cc endCs
    if t.toInt ≤ ns then
      match cc.valueFromNsFromOrigin t with
      | none => .error .error
      | some newBegin => return .push (.discarded items stream newBegin endCs none) false
    else return .skip

/-- The first part of `auto_seek_handle_message()` -/
def verdict (t : Int64) (msg : Msg) : Except HandleErr Verdict :=
  match msg with
  | .discarded items stream beginCs endCs count =>
    match msg.clockSnapshot with
    | none => .ok .skip
    | some cs => verdictOfDiscarded t items stream beginCs endCs count cs.1
  | .event _ _ _ _ =>
    match msg.clockSnapshot with
    | none => .error .upstream
    | some cs => verdictOf t msg cs
  | _ =>
    match msg.clockSnapshot with
    | none => .ok .skip
    | some cs => verdictOf t msg cs

def updateState (states : StreamStates) (stream : Stream)
    (f : AutoSeekStreamState → Option AutoSeekStreamState) : Except HandleErr StreamStates :=
  match (states.lookup stream).bind f with
  | none => .error .upstream
  | some state => .ok (states.insert stream state)

/-- The second part of `auto_seek_handle_message()` -/
def skipMsg (states : StreamStates) (msg : Msg) : Except HandleErr StreamStates :=
  let seen := msg.clockSnapshot.isSome
  match msg with
  | .streamBeginning stream _ =>
    if stream ∈ states then .error .upstream
    else .ok (states.insert stream ⟨.streamBegan, seen⟩)
  | .packetBeginning packet _ =>
    updateState states packet.stream fun
      | ⟨.streamBegan, seen'⟩ => some ⟨.packetBegan packet, seen' || seen⟩
      | _ => none
  | .event stream _ _ _ => updateState states stream fun state => some ⟨state.state, true⟩
  | .packetEnd packet _ =>
    updateState states packet.stream fun
      | ⟨.packetBegan _, seen'⟩ => some ⟨.streamBegan, seen' || seen⟩
      | _ => none
  | .streamEnd stream _ =>
    match states.lookup stream with
    | some ⟨.streamBegan, _⟩ => .ok (states.erase stream)
    | _ => .error .upstream
  | .discarded _ stream _ _ _ =>
    updateState states stream fun state =>
      some ⟨state.state, state.seenClockSnapshot || seen⟩
  | .inactivity _ _ => .ok states

/-- The queue (`auto_seek.msgs`), `got_first`, and `stream_states` -/
structure FastForward where
  queue : List Msg
  gotFirst : Bool
  states : StreamStates

def FastForward.init : FastForward := ⟨[], false, ∅⟩

def autoSeekHandleMessage (t : Int64) (ff : FastForward) (msg : Msg) :
    Except HandleErr FastForward := do
  match ← verdict t msg with
  | .push msg gotFirst => return { ff with queue := ff.queue ++ [msg], gotFirst }
  | .skip => return { ff with states := ← skipMsg ff.states msg }

/-- The messages of one batch of `find_message_ge_ns_from_origin()` -/
def handleBatch (t : Int64) (ff : FastForward) : List Msg → Option HandleErr × FastForward
  | [] => (none, ff)
  | msg :: msgs =>
    if ff.gotFirst then handleBatch t { ff with queue := ff.queue ++ [msg] } msgs
    else
      match autoSeekHandleMessage t ff msg with
      | .error err => (some err, ff)
      | .ok ff => handleBatch t ff msgs

def msgBatchSize : ℕ := 15

inductive Reply
  | ok (count : ℕ)
  | again
  | ended
  | error
  | memoryError
  deriving DecidableEq, Repr

/-- `none` when the reply isn't possible -/
def userNext (rest : List Msg) : Reply → Option (Status × List Msg × List Msg)
  | .ok count =>
    if count ≤ msgBatchSize ∧ count ≤ rest.length then
      some (.ok, rest.take count, rest.drop count)
    else none
  | .again => some (.again, [], rest)
  | .ended => if rest = [] then some (.ended, [], rest) else none
  | .error => some (.error, [], rest)
  | .memoryError => some (.memoryError, [], rest)

/-- `find_message_ge_ns_from_origin()`; `none` when there aren't enough replies -/
def findMessageGe (t : Int64) (ff : FastForward) (rest : List Msg) :
    List Reply → Option (Status × List Msg × FastForward)
  | [] => none
  | reply :: replies =>
    match userNext rest reply with
    | none => none
    | some (.ok, msgs, rest) =>
      match handleBatch t ff msgs with
      | (none, ff) => if ff.gotFirst then some (.ok, rest, ff) else findMessageGe t ff rest replies
      | (some err, ff) => some (err.status, rest, ff)
    | some (status, _, rest) => some (status, rest, ff)

/-- The requested time if a skipped message of the stream had a clock snapshot -/
def recreatedSnapshot (t : Int64) (entry : StreamEntry) : Except HandleErr (Option UInt64) :=
  if entry.2.seenClockSnapshot then
    match entry.1.cls.defaultClockClass with
    | none => .error .upstream
    | some cc =>
      match cc.valueFromNsFromOrigin t with
      | none => .error .error
      | some value => .ok (some value)
  else .ok none

def beginningMsgs (t : Int64) (entry : StreamEntry) : Except HandleErr (List Msg) := do
  let rawValue ← recreatedSnapshot t entry
  match entry.2.state with
  | .packetBegan packet =>
    if entry.1.cls.packetsHaveBeginningDefaultClockSnapshot ∧ rawValue = none then .error .upstream
    else return [.streamBeginning entry.1 rawValue, .packetBeginning packet (rawValue.getD 0)]
  | .streamBegan => return [.streamBeginning entry.1 rawValue]

def prependStreams (t : Int64) : List StreamEntry → List Msg → Option HandleErr × List Msg
  | [], queue => (none, queue)
  | entry :: entries, queue =>
    match beginningMsgs t entry with
    | .error err => (some err, queue)
    | .ok msgs => prependStreams t entries (msgs ++ queue)

/-! ## Message iterator -/

inductive IterState
  | active
  | ended
  | lastSeekingReturnedAgain
  | lastSeekingReturnedError
  deriving DecidableEq, Repr

inductive NextMethod
  | user
  | postAutoSeek
  deriving DecidableEq, Repr

/-- `bt_message_iterator`; `rest` is what the user's methods still have to return. -/
structure Iter where
  state : IterState
  next : NextMethod
  originalNextCallback : Option NextMethod
  autoSeekMsgs : List Msg
  rest : List Msg
  deriving DecidableEq, Repr

def Iter.new (upstream : List Msg) : Iter := ⟨.active, .user, none, [], upstream⟩

/-- `set_iterator_state_after_seeking()` -/
def IterState.afterSeeking : Status → IterState
  | .ok => .active
  | .again => .lastSeekingReturnedAgain
  | .ended => .ended
  | .error | .memoryError | .fault _ => .lastSeekingReturnedError

def postAutoSeekNext (it : Iter) : Status × List Msg × Iter :=
  if it.autoSeekMsgs = [] then (.fault .emptyQueue, [], it)
  else
    let msgs := it.autoSeekMsgs.take msgBatchSize
    let queue := it.autoSeekMsgs.drop msgBatchSize
    if queue = [] then
      match it.originalNextCallback with
      | none => (.fault .savedNext, [], it)
      | some next =>
        (.ok, msgs, { it with next, originalNextCallback := none, autoSeekMsgs := queue })
    else (.ok, msgs, { it with autoSeekMsgs := queue })

/-- `bt_message_iterator_next()` -/
def nextMsgs (it : Iter) (reply : Reply) : Option (Status × List Msg × Iter) :=
  if it.state ≠ .active then none
  else
    match it.next with
    | .postAutoSeek => some (postAutoSeekNext it)
    | .user => do
      let (status, msgs, rest) ← userNext it.rest reply
      return (status, msgs,
        { it with rest, state := if status = .ended then .ended else it.state })

inductive SeekReply
  | ok
  | again
  | error
  | memoryError
  deriving DecidableEq, Repr

def SeekReply.status : SeekReply → Status
  | .ok => .ok
  | .again => .again
  | .error => .error
  | .memoryError => .memoryError

/-- `bt_message_iterator_seek_beginning()` -/
def seekBeginning (upstream : List Msg) (it : Iter) (reply : SeekReply) : Status × Iter :=
  let rest := if reply = .ok then upstream else it.rest
  (reply.status, { it with rest, state := .afterSeeking reply.status })

/-- The end of `bt_message_iterator_seek_ns_from_origin()`; `order` is the order in which the hash
table of streams is iterated. -/
def installAutoSeek (order : List StreamEntry → List StreamEntry) (t : Int64) (it : Iter)
    (ff : FastForward) : Status × Iter :=
  match prependStreams t (order ff.states.entries) ff.queue with
  | (none, []) => (.ok, { it with autoSeekMsgs := [] })
  | (none, queue) =>
    if it.originalNextCallback.isSome then (.fault .savedNext, { it with autoSeekMsgs := queue })
    else
      (.ok, { it with
        autoSeekMsgs := queue, originalNextCallback := some it.next, next := .postAutoSeek })
  | (some err, queue) => (err.status, { it with autoSeekMsgs := queue })

/-- `bt_message_iterator_seek_ns_from_origin()` once the user's "seek beginning" method has
succeeded -/
def autoSeek (order : List StreamEntry → List StreamEntry) (t : Int64) (it : Iter)
    (replies : List Reply) : Option (Status × Iter) :=
  match it.next with
  | .postAutoSeek => some ((postAutoSeekNext { it with autoSeekMsgs := [] }).1,
      { it with autoSeekMsgs := [] })
  | .user => do
    let (status, rest, ff) ← findMessageGe t .init it.rest replies
    match status with
    | .ok | .ended => return installAutoSeek order t { it with rest } ff
    | status => return (status, { it with rest, autoSeekMsgs := ff.queue })

/-- `bt_message_iterator_seek_ns_from_origin()` of an iterator which can't seek by itself -/
def seekNsFromOrigin (order : List StreamEntry → List StreamEntry) (upstream : List Msg)
    (it : Iter) (t : Int64) (reply : SeekReply) (replies : List Reply) : Option (Status × Iter) :=
  if reply = .ok then do
    let (status, it) ← autoSeek order t { it with rest := upstream } replies
    return (status, { it with state := .afterSeeking status })
  else some (reply.status, { it with state := .afterSeeking reply.status })

end Babeltrace.Graph
