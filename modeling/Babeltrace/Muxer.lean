import Babeltrace.Messages
import Babeltrace.PrioHeap

/-!
# Muxer

The message iterator of a `flt.utils.muxer` component (`muxer/msg-iter.cpp` and
`muxer/upstream-msg-iter.cpp`): a heap of the upstream message iterators which have a current
message, the oldest one at the top, and a list of those to reload. What the calls of an upstream
message iterator return is its script. The comparison of messages which have equal timestamps
(`MessageComparator`) and the clock correlation validator are parameters.
-/
namespace Babeltrace.Muxer
open TraceIr Babeltrace.Graph

/-- Exceptions, and failed assertions -/
inductive Exc
  | tryAgain
  | error
  | fault
  deriving DecidableEq, Repr

/-! ## Upstream message iterators -/

/-- What the "next" method of an upstream message iterator returns -/
inductive Reply
  | msgs (first : Msg) (others : List Msg)
  | again
  | error
  deriving DecidableEq, Repr

def Reply.batch : Reply → List Msg
  | .msgs first others => first :: others
  | .again | .error => []

/-- `msgs` is the current batch from its current message on. -/
structure UpstreamMsgIter where
  script : List Reply
  msgs : List Msg
  msgTs : Option ℤ
  deriving DecidableEq, Repr

def UpstreamMsgIter.new (script : List Reply) : UpstreamMsgIter := ⟨script, [], none⟩

inductive ReloadStatus
  | more
  | noMore
  deriving DecidableEq, Repr

def UpstreamMsgIter.tryGetNewMsgs (u : UpstreamMsgIter) : Option Exc × UpstreamMsgIter :=
  match u.script with
  | [] => (none, u)
  | .msgs first others :: script => (none, { u with script, msgs := first :: others })
  | .again :: script => (some .tryAgain, { u with script })
  | .error :: script => (some .error, { u with script })

/-- The second part of `UpstreamMsgIter::reload()` -/
def UpstreamMsgIter.cacheTs (u : UpstreamMsgIter) : Except Exc ReloadStatus × UpstreamMsgIter :=
  match u.msgs with
  | [] => (.ok .noMore, { u with msgTs := none })
  | msg :: _ =>
    match msg.clockSnapshot with
    | none => (.ok .more, { u with msgTs := none })
    | some cs =>
      match cs.1.time cs.2 with
      | none => (.error .error, u)
      | some ns => (.ok .more, { u with msgTs := some ns })

def UpstreamMsgIter.reload (u : UpstreamMsgIter) : Except Exc ReloadStatus × UpstreamMsgIter :=
  if u.msgs = [] then
    match u.tryGetNewMsgs with
    | (none, u) => u.cacheTs
    | (some exc, u) => (.error exc, u)
  else u.cacheTs

def UpstreamMsgIter.discard (u : UpstreamMsgIter) : UpstreamMsgIter := { u with msgs := u.msgs.tail }

/-! ## Message iterator -/

/-- `excToThrow` is true when an error is saved (`_mExcToThrowType`). -/
structure MsgIter (ι V : Type) where
  upstreams : ι → UpstreamMsgIter
  heap : List ι
  toReload : List ι
  validator : V
  excToThrow : Bool

variable {ι V : Type} [DecidableEq ι] (tieBreak : Msg → Msg → Bool) (validate : V → Msg → Option V)

def compareMsgs (a b : UpstreamMsgIter) : Bool :=
  match a.msgs, b.msgs with
  | msgA :: _, msgB :: _ => tieBreak msgA msgB
  | _, _ => false

/-- `MsgIter::_HeapComparator::operator()` -/
def older (a b : UpstreamMsgIter) : Bool :=
  match a.msgTs, b.msgTs with
  | some tsA, some tsB =>
    if tsA < tsB then true else if tsB < tsA then false else compareMsgs tieBreak a b
  | some _, none => false
  | none, some _ => true
  | none, none => compareMsgs tieBreak a b

def validateMsgClkCls (validator : V) (msg : Msg) : Option V :=
  match msg with
  | .streamBeginning _ _ | .inactivity _ _ => validate validator msg
  | _ => some validator

namespace MsgIter

def new (ports : List ι) (scripts : ι → List Reply) (validator : V) : MsgIter ι V :=
  ⟨fun i => .new (scripts i), [], ports, validator, false⟩

def setUpstream (it : MsgIter ι V) (i : ι) (u : UpstreamMsgIter) : MsgIter ι V :=
  { it with upstreams := Function.update it.upstreams i u }

def gt (it : MsgIter ι V) (a b : ι) : Bool := older tieBreak (it.upstreams a) (it.upstreams b)

/-- `MsgIter::_ensureFullHeap()` with what remains to reload -/
def ensureFullHeap (it : MsgIter ι V) : List ι → Option Exc × MsgIter ι V
  | [] => (none, { it with toReload := [] })
  | i :: is =>
    match (it.upstreams i).reload with
    | (.ok .more, u) =>
      ensureFullHeap { it.setUpstream i u with
        heap := PrioHeap.insert ((it.setUpstream i u).gt tieBreak) it.heap i } is
    | (.ok .noMore, u) => ensureFullHeap (it.setUpstream i u) is
    | (.error exc, u) => (some exc, { it.setUpstream i u with toReload := i :: is })

/-- The loop of `MsgIter::_next()` -/
def fill : ℕ → List Msg → MsgIter ι V → Option Exc × List Msg × MsgIter ι V
  | 0, msgs, it => (none, msgs, it)
  | capacity + 1, msgs, it =>
    match it.heap with
    | [] => (none, msgs, it)
    | oldest :: _ =>
      match (it.upstreams oldest).msgs with
      | [] => (some .fault, msgs, it)
      | msg :: _ =>
        match validateMsgClkCls validate it.validator msg with
        | none => (some .error, msgs, it)
        | some validator =>
          let it := { it with validator }
          match (it.upstreams oldest).discard.reload with
          | (.ok .more, u) =>
            fill capacity (msgs ++ [msg]) { it.setUpstream oldest u with
              heap := PrioHeap.replaceTop ((it.setUpstream oldest u).gt tieBreak) it.heap oldest }
          | (.ok .noMore, u) =>
            fill capacity (msgs ++ [msg]) { it.setUpstream oldest u with
              heap := PrioHeap.removeTop ((it.setUpstream oldest u).gt tieBreak) it.heap }
          | (.error .tryAgain, u) =>
            (some .tryAgain, msgs ++ [msg], { it.setUpstream oldest u with
              heap := PrioHeap.removeTop ((it.setUpstream oldest u).gt tieBreak) it.heap
              toReload := it.toReload ++ [oldest] })
          | (.error exc, u) => (some exc, msgs ++ [msg], it.setUpstream oldest u)

/-- `MsgIter::_next()` -/
def fillArray (capacity : ℕ) (it : MsgIter ι V) : Option Exc × List Msg × MsgIter ι V :=
  match it.ensureFullHeap tieBreak it.toReload with
  | (some exc, it) => (some exc, [], it)
  | (none, it) => fill tieBreak validate capacity [] it

/-- `UserMessageIterator::next()`: an empty array is the end. -/
def next (capacity : ℕ) (it : MsgIter ι V) : Except Exc (List Msg) × MsgIter ι V :=
  if it.excToThrow then (.error .error, it)
  else
    match it.fillArray tieBreak validate capacity with
    | (none, msgs, it) => (.ok msgs, it)
    | (some exc, msgs, it) =>
      if msgs = [] then (.error exc, it)
      else if exc = .tryAgain then (.ok msgs, it)
      else (.ok msgs, { it with excToThrow := true })

end MsgIter

/-! ## Calls -/

def returned : Except Exc (List Msg) → List Msg
  | .ok msgs => msgs
  | .error _ => []

def afterCalls (it : MsgIter ι V) (capacities : ℕ → ℕ) : ℕ → MsgIter ι V × List Msg
  | 0 => (it, [])
  | k + 1 =>
    let (it, delivered) := afterCalls it capacities k
    let r := it.next tieBreak validate (capacities k)
    (r.2, delivered ++ returned r.1)

/-- What call `k` returns -/
def call (it : MsgIter ι V) (capacities : ℕ → ℕ) (k : ℕ) : Except Exc (List Msg) :=
  ((afterCalls tieBreak validate it capacities k).1.next tieBreak validate (capacities k)).1

def scriptMsgs (script : List Reply) : List Msg := script.flatMap Reply.batch

def msgsFrom (i : ι) (tagged : List (ι × Msg)) : List Msg :=
  (tagged.filter fun x => x.1 = i).map Prod.snd

/-- The messages are those of the upstream message iterators, each one once and in their own order.
-/
def IsInterleaving (ports : List ι) (upstream : ι → List Msg) (out : List Msg) : Prop :=
  ∃ tagged : List (ι × Msg), tagged.map Prod.snd = out ∧ (∀ x ∈ tagged, x.1 ∈ ports) ∧
    ∀ i ∈ ports, msgsFrom i tagged = upstream i

end Babeltrace.Muxer
