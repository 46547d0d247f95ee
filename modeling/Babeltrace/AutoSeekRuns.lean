import Mathlib
import Babeltrace.AutoSeek

/-!
# Runs of a message iterator with automatic seeking

What a successful seek leads to is a function of the upstream messages (`afterSeek`). When no seek
occurs before the queue of the previous one is drained, what was delivered since the last seek and
what remains make this list.
-/
namespace Babeltrace.Graph
open TraceIr

/-- The fast-forward, message by message, and the messages which follow it -/
def fastForward (t : Int64) (ff : FastForward) : List Msg → Except HandleErr (FastForward × List Msg)
  | [] => .ok (ff, [])
  | msg :: msgs =>
    match autoSeekHandleMessage t ff msg with
    | .error err => .error err
    | .ok ff => if ff.gotFirst then .ok (ff, msgs) else fastForward t ff msgs

inductive Target
  | beginning
  | nsFromOrigin (t : Int64)
  deriving DecidableEq, Repr

def afterSeek (order : List StreamEntry → List StreamEntry) (upstream : List Msg) :
    Target → Option (List Msg)
  | .beginning => some upstream
  | .nsFromOrigin t =>
    match fastForward t .init upstream with
    | .error _ => none
    | .ok (ff, rest) =>
      match prependStreams t (order ff.states.entries) ff.queue with
      | (none, queue) => some (queue ++ rest)
      | (some _, _) => none

/-! ## Batches -/

def Status.NoFault (status : Status) : Prop :=
  status ≠ .fault .emptyQueue ∧ status ≠ .fault .savedNext

theorem HandleErr.noFault (err : HandleErr) : err.status.NoFault := by
  cases err <;> exact ⟨by decide, by decide⟩

theorem SeekReply.noFault (reply : SeekReply) : reply.status.NoFault := by
  cases reply <;> exact ⟨by decide, by decide⟩

variable {msgs : List Msg} {reply : Reply} {status : Status} {replies : List Reply} {it : Iter}

theorem userNext_noFault {rest rest' : List Msg}
    (hnext : userNext rest reply = some (status, msgs, rest')) : status.NoFault := by
  cases reply <;> simp only [userNext, Option.ite_none_right_eq_some, Option.some.injEq,
    Prod.mk.injEq] at hnext
  case ok | ended =>
    obtain ⟨-, rfl, -⟩ := hnext
    exact ⟨by decide, by decide⟩
  all_goals
    obtain ⟨rfl, -⟩ := hnext
    exact ⟨by decide, by decide⟩

section

variable {t : Int64} {ff ff' : FastForward} {rest rest' : List Msg}

def FastForward.push (ff : FastForward) (msgs : List Msg) : FastForward :=
  { ff with queue := ff.queue ++ msgs }

theorem handleBatch_of_gotFirst (msgs : List Msg) (hff : ff.gotFirst = true) :
    handleBatch t ff msgs = (none, ff.push msgs) := by
  induction msgs generalizing ff with
  | nil => simp only [handleBatch, FastForward.push, List.append_nil]
  | cons msg msgs ih =>
    have hpush : (ff.push [msg]).gotFirst = true := hff
    have hnext := ih hpush
    rw [handleBatch, if_pos hff]
    refine hnext.trans ?_
    simp only [FastForward.push, List.append_assoc, List.cons_append, List.nil_append]

theorem handleBatch_cases (hff : ff.gotFirst = false) (h : handleBatch t ff msgs = (none, ff')) :
    (ff'.gotFirst = false ∧
      ∀ rest, fastForward t ff (msgs ++ rest) = fastForward t ff' rest) ∨
    (ff'.gotFirst = true ∧ ∃ ff₁ tail, ff' = ff₁.push tail ∧
      ∀ rest, fastForward t ff (msgs ++ rest) = .ok (ff₁, tail ++ rest)) := by
  induction msgs generalizing ff with
  | nil =>
    simp only [handleBatch, Prod.mk.injEq, true_and] at h
    subst h
    exact .inl ⟨hff, fun rest => rfl⟩
  | cons msg msgs ih =>
    simp only [handleBatch, hff, Bool.false_eq_true, if_false] at h
    cases hmsg : autoSeekHandleMessage t ff msg with
    | error err =>
      rw [hmsg] at h
      cases h
    | ok ff₁ =>
      simp only [hmsg] at h
      simp only [List.cons_append, fastForward, hmsg]
      cases hfirst : ff₁.gotFirst with
      | false =>
        simp only [Bool.false_eq_true, if_false]
        exact ih hfirst h
      | true =>
        rw [handleBatch_of_gotFirst msgs hfirst] at h
        cases h
        exact .inr ⟨hfirst, ff₁, msgs, rfl, fun rest => rfl⟩

theorem userNext_ok (h : userNext rest reply = some (.ok, msgs, rest')) : rest = msgs ++ rest' := by
  cases reply <;> simp only [userNext, Option.ite_none_right_eq_some, Option.some.injEq,
    Prod.mk.injEq, reduceCtorEq, false_and, and_false] at h
  obtain ⟨-, -, rfl, rfl⟩ := h
  exact (List.take_append_drop _ _).symm

theorem userNext_ended (h : userNext rest reply = some (.ended, msgs, rest')) :
    msgs = [] ∧ rest = [] ∧ rest' = [] := by
  cases reply <;> simp only [userNext, Option.ite_none_right_eq_some, Option.some.injEq,
    Prod.mk.injEq, reduceCtorEq, false_and, and_false] at h
  obtain ⟨rfl, -, rfl, rfl⟩ := h
  exact ⟨rfl, rfl, rfl⟩

theorem userNext_rest (h : userNext rest reply = some (status, msgs, rest'))
    (hstatus : status ≠ .ok) :
    msgs = [] ∧ rest' = rest := by
  cases reply <;> simp only [userNext, Option.ite_none_right_eq_some, Option.some.injEq,
    Prod.mk.injEq] at h
  case ok => exact absurd h.2.1.symm hstatus
  case ended =>
    obtain ⟨-, -, rfl, rfl⟩ := h
    exact ⟨rfl, rfl⟩
  all_goals
    obtain ⟨-, rfl, rfl⟩ := h
    exact ⟨rfl, rfl⟩

/-- Whatever the replies, a successful search is the fast-forward of the upstream messages. -/
theorem findMessageGe_eq (hff : ff.gotFirst = false)
    (h : findMessageGe t ff rest replies = some (status, rest', ff'))
    (hstatus : status = .ok ∨ status = .ended) :
    ∃ ff₁ tail, ff' = ff₁.push tail ∧ fastForward t ff rest = .ok (ff₁, tail ++ rest') := by
  induction replies generalizing ff rest with
  | nil => cases h
  | cons reply replies ih =>
    simp only [findMessageGe] at h
    split at h
    · cases h
    · rename_i msgs rest₁ hnext
      obtain rfl := userNext_ok hnext
      split at h
      · rename_i ff₁ hbatch
        rcases handleBatch_cases hff hbatch with ⟨hfirst, hforward⟩ | ⟨hfirst, ff₂, tail, rfl, hforward⟩
        · rw [hforward]
          rw [hfirst] at h
          exact ih hfirst h
        · rw [if_pos hfirst] at h
          cases h
          exact ⟨ff₂, tail, rfl, hforward _⟩
      · rename_i err _ _
        cases h
        cases err <;> rcases hstatus with h | h <;> cases h
    · rename_i hne hnext
      cases h
      rcases hstatus with rfl | rfl
      · exact absurd rfl hne
      · obtain ⟨-, rfl, rfl⟩ := userNext_ended hnext
        exact ⟨ff', [], by simp only [FastForward.push, List.append_nil], rfl⟩

theorem findMessageGe_noFault (h : findMessageGe t ff rest replies = some (status, rest', ff')) :
    status.NoFault := by
  induction replies generalizing ff rest with
  | nil => cases h
  | cons reply replies ih =>
    simp only [findMessageGe] at h
    split at h
    · cases h
    · split at h
      · split at h
        · cases h
          exact ⟨by decide, by decide⟩
        · exact ih h
      · cases h
        exact HandleErr.noFault _
    · rename_i hnext
      cases h
      exact userNext_noFault hnext

end

/-! ## Streams to recreate -/

theorem prependStreams_append (t : Int64) (entries : List StreamEntry) (queue tail : List Msg) :
    prependStreams t entries (queue ++ tail) =
      ((prependStreams t entries queue).1, (prependStreams t entries queue).2 ++ tail) := by
  induction entries generalizing queue with
  | nil => rfl
  | cons entry entries ih =>
    simp only [prependStreams]
    cases beginningMsgs t entry with
    | error err => rfl
    | ok msgs =>
      simp only [← List.append_assoc]
      exact ih (msgs ++ queue)

/-! ## Calls -/

inductive Call
  | next (reply : Reply)
  | seekBeginning (reply : SeekReply)
  | seekNsFromOrigin (t : Int64) (reply : SeekReply) (replies : List Reply)
  deriving DecidableEq, Repr

def Call.isSeek : Call → Bool
  | .next _ => false
  | .seekBeginning _ | .seekNsFromOrigin _ _ _ => true

/-- An iterator, the target of its last successful seek, and the messages which were returned since
-/
structure History where
  it : Iter
  target : Option Target
  delivered : List Msg
  deriving DecidableEq, Repr

def History.new (upstream : List Msg) : History := ⟨.new upstream, some .beginning, []⟩

section

variable (order : List StreamEntry → List StreamEntry) (upstream : List Msg)

def History.sought (target : Target) (r : Status × Iter) : Status × History :=
  (r.1, ⟨r.2, if r.1 = .ok then some target else none, []⟩)

def History.call (h : History) : Call → Option (Status × History)
  | .next reply => do
    let (status, msgs, it) ← nextMsgs h.it reply
    return (status, { h with it, delivered := h.delivered ++ msgs })
  | .seekBeginning reply => some (History.sought .beginning (seekBeginning upstream h.it reply))
  | .seekNsFromOrigin t reply replies =>
    (seekNsFromOrigin order upstream h.it t reply replies).map
      (History.sought (.nsFromOrigin t))

/-- A call which isn't a seek while the queue of the previous one isn't drained -/
def Step (h h' : History) : Prop :=
  ∃ call status, (call.isSeek = true → h.it.next = .user) ∧
    h.call order upstream call = some (status, h')

def Iter.pending (it : Iter) : List Msg :=
  (if it.next = .postAutoSeek then it.autoSeekMsgs else []) ++ it.rest

structure History.Inv (h : History) : Prop where
  saved : h.it.originalNextCallback = if h.it.next = .user then none else some .user
  queued : h.it.next = .postAutoSeek → h.it.autoSeekMsgs ≠ []
  pending : ∀ target ∈ h.target,
    afterSeek order upstream target = some (h.delivered ++ h.it.pending)
  ended : h.it.state = .ended → h.it.pending = []

end

section

variable {order : List StreamEntry → List StreamEntry} {upstream : List Msg} {h : History}

theorem History.new_inv : (History.new upstream).Inv order upstream := by
  refine ⟨rfl, fun hnext => (by cases hnext), fun target htarget => ?_,
    fun hstate => (by cases hstate)⟩
  cases htarget
  rfl

theorem History.Inv.postAutoSeekNext (hinv : h.Inv order upstream) (hstate : h.it.state ≠ .ended)
    (hnext : h.it.next = .postAutoSeek) (hcall : postAutoSeekNext h.it = (status, msgs, it)) :
    status.NoFault ∧
      (History.mk it h.target (h.delivered ++ msgs)).Inv order upstream := by
  have hqueue := hinv.queued hnext
  have hsaved : h.it.originalNextCallback = some .user := by
    rw [hinv.saved, hnext]
    rfl
  have hpending : h.it.pending = h.it.autoSeekMsgs ++ h.it.rest := by
    simp only [Iter.pending, hnext, if_true]
  have hsplit : h.it.autoSeekMsgs.take msgBatchSize ++ h.it.autoSeekMsgs.drop msgBatchSize =
    h.it.autoSeekMsgs := List.take_append_drop _ _
  simp only [Graph.postAutoSeekNext, hqueue, if_false, hsaved] at hcall
  by_cases hdrop : h.it.autoSeekMsgs.drop msgBatchSize = []
  · rw [if_pos hdrop] at hcall
    cases hcall
    rw [hdrop, List.append_nil] at hsplit
    refine ⟨⟨by decide, by decide⟩, rfl, fun hnext => (by cases hnext), fun target htarget => ?_,
      fun hended => absurd hended hstate⟩
    rw [hinv.pending target htarget, hpending]
    simp only [Iter.pending, reduceCtorEq, if_false, List.nil_append, List.append_assoc, hsplit]
  · rw [if_neg hdrop] at hcall
    cases hcall
    refine ⟨⟨by decide, by decide⟩, ?_, fun _ => hdrop, fun target htarget => ?_,
      fun hended => absurd hended hstate⟩
    · simp only [hnext, reduceCtorEq, if_false]
    · rw [hinv.pending target htarget, hpending]
      simp only [Iter.pending, hnext, if_true, List.append_assoc]
      rw [← List.append_assoc (List.take _ _), hsplit]

theorem History.Inv.userNext (hinv : h.Inv order upstream) (hnext : h.it.next = .user)
    {rest : List Msg} (hcall : userNext h.it.rest reply = some (status, msgs, rest))
    (hstate : h.it.state ≠ .ended) :
    (History.mk { h.it with rest, state := if status = .ended then .ended else h.it.state }
      h.target (h.delivered ++ msgs)).Inv order upstream := by
  have hrest : h.it.rest = msgs ++ rest := by
    by_cases hok : status = .ok
    · exact userNext_ok (hok ▸ hcall)
    · obtain ⟨rfl, rfl⟩ := userNext_rest hcall hok
      rfl
  have hpending : h.it.pending = h.it.rest := by
    simp only [Iter.pending, hnext, reduceCtorEq, if_false, List.nil_append]
  refine ⟨hinv.saved, hinv.queued, fun target htarget => ?_, fun hended => ?_⟩
  · rw [hinv.pending target htarget, hpending, hrest]
    simp only [Iter.pending, hnext, reduceCtorEq, if_false, List.nil_append, List.append_assoc]
  · simp only [Iter.pending, hnext, reduceCtorEq, if_false, List.nil_append]
    by_cases hend : status = .ended
    · exact (userNext_ended (hend ▸ hcall)).2.2
    · simp only [hend, if_false] at hended
      exact absurd hended hstate

theorem History.Inv.of_user {target : Option Target} (hnext : it.next = .user)
    (hsaved : it.originalNextCallback = none) (hstate : it.state ≠ .ended)
    (htarget : ∀ x ∈ target, afterSeek order upstream x = some it.rest) :
    (History.mk it target []).Inv order upstream := by
  refine ⟨?_, fun hpost => ?_, fun x hx => ?_, fun hended => absurd hended hstate⟩
  · simp only [hnext, if_true]
    exact hsaved
  · rw [hnext] at hpost
    cases hpost
  · rw [htarget x hx]
    simp only [Iter.pending, hnext, reduceCtorEq, if_false, List.nil_append]

theorem afterSeeking_ne_ended (hstatus : status ≠ .ended) :
    IterState.afterSeeking status ≠ .ended := by
  cases status <;> simp_all [IterState.afterSeeking]

theorem HandleErr.status_ne (err : HandleErr) : err.status ≠ .ended ∧ err.status ≠ .ok := by
  cases err <;> exact ⟨by decide, by decide⟩

theorem SeekReply.status_ne_ended (reply : SeekReply) : reply.status ≠ .ended := by
  cases reply <;> decide

theorem installAutoSeek_inv {t : Int64} {it' : Iter} {ff : FastForward} {tail : List Msg}
    (hnext : it.next = .user) (hsaved : it.originalNextCallback = none)
    (hforward : fastForward t .init upstream = .ok (ff, tail ++ it.rest))
    (hcall : installAutoSeek order t it (ff.push tail) = (status, it')) :
    status.NoFault ∧ status ≠ .ended ∧
      (status ≠ .ok → it'.next = .user ∧ it'.originalNextCallback = none) ∧
      (status = .ok → (History.mk { it' with state := .active } (some (.nsFromOrigin t)) []).Inv
        order upstream) := by
  have hprepend := prependStreams_append t (order ff.states.entries) ff.queue tail
  simp only [installAutoSeek, FastForward.push, hprepend] at hcall
  cases hr : prependStreams t (order ff.states.entries) ff.queue with
  | mk err queue =>
    simp only [hr] at hcall
    cases err with
    | some err =>
      cases hcall
      exact ⟨err.noFault, err.status_ne.1, fun _ => ⟨hnext, hsaved⟩,
        fun hok => absurd hok err.status_ne.2⟩
    | none =>
      have hafter : afterSeek order upstream (.nsFromOrigin t) =
          some (queue ++ (tail ++ it.rest)) := by simp only [afterSeek, hforward, hr]
      cases hqueue : queue ++ tail with
      | nil =>
        simp only [hqueue] at hcall
        cases hcall
        refine ⟨⟨by decide, by decide⟩, by decide, fun hne => absurd rfl hne, fun _ => ?_⟩
        refine .of_user hnext hsaved IterState.noConfusion fun x hx => ?_
        cases hx
        rw [hafter, ← List.append_assoc, hqueue]
        rfl
      | cons msg msgs =>
        simp only [hqueue, hsaved, Option.isSome_none, Bool.false_eq_true, if_false] at hcall
        cases hcall
        refine ⟨⟨by decide, by decide⟩, by decide, fun hne => absurd rfl hne, fun _ => ?_⟩
        refine ⟨?_, fun _ => List.cons_ne_nil _ _, fun x hx => ?_, fun hended => by cases hended⟩
        · simp only [hnext, reduceCtorEq, if_false]
        · cases hx
          rw [hafter, ← List.append_assoc, hqueue]
          rfl

theorem autoSeek_inv {t : Int64} (it : Iter) {it' : Iter} (hnext : it.next = .user)
    (hsaved : it.originalNextCallback = none) (hrest : it.rest = upstream)
    (hcall : autoSeek order t it replies = some (status, it')) :
    status.NoFault ∧ status ≠ .ended ∧
      (status ≠ .ok → it'.next = .user ∧ it'.originalNextCallback = none) ∧
      (status = .ok → (History.mk { it' with state := .active } (some (.nsFromOrigin t)) []).Inv
        order upstream) := by
  obtain ⟨state, next, saved, queue, rest⟩ := it
  obtain rfl : next = .user := hnext
  obtain rfl : saved = none := hsaved
  obtain rfl : rest = upstream := hrest
  simp only [autoSeek, Option.bind_eq_bind, Option.bind_eq_some_iff] at hcall
  obtain ⟨⟨status', rest', ff⟩, hfind, hcall⟩ := hcall
  have hinit : FastForward.init.gotFirst = false := rfl
  by_cases hstatus : status' = .ok ∨ status' = .ended
  · obtain ⟨ff₁, tail, rfl, hforward⟩ := findMessageGe_eq hinit hfind hstatus
    have hinstall : installAutoSeek order t ⟨state, .user, none, queue, rest'⟩ (ff₁.push tail) =
        (status, it') := by
      rcases hstatus with rfl | rfl <;> exact Option.some.inj hcall
    exact installAutoSeek_inv rfl rfl hforward hinstall
  · obtain ⟨hok, hended⟩ := not_or.mp hstatus
    have hnoFault := findMessageGe_noFault hfind
    cases status' <;> first | exact absurd rfl hok | exact absurd rfl hended | skip
    all_goals
      cases hcall
      exact ⟨hnoFault, hended, fun _ => ⟨rfl, rfl⟩, fun h => absurd h hok⟩

theorem History.Inv.step (hinv : h.Inv order upstream) {call : Call} {h' : History}
    (hguard : call.isSeek = true → h.it.next = .user)
    (hcall : h.call order upstream call = some (status, h')) :
    status.NoFault ∧ h'.Inv order upstream := by
  cases call with
  | next reply =>
    simp only [History.call, Option.bind_eq_bind, Option.bind_eq_some_iff] at hcall
    obtain ⟨⟨status', msgs, it⟩, hnext, hcall⟩ := hcall
    cases hcall
    simp only [nextMsgs, Option.ite_none_left_eq_some, not_not] at hnext
    obtain ⟨hactive, hnext⟩ := hnext
    have hstate : h.it.state ≠ .ended := by
      rw [hactive]
      decide
    cases hmethod : h.it.next with
    | postAutoSeek =>
      simp only [hmethod, Option.some.injEq] at hnext
      exact hinv.postAutoSeekNext hstate hmethod hnext
    | user =>
      simp only [hmethod, Option.bind_eq_bind, Option.bind_eq_some_iff] at hnext
      obtain ⟨⟨status'', msgs', rest⟩, huser, hnext⟩ := hnext
      cases hnext
      have hkeep := hinv.userNext hmethod huser hstate
      simp only [hmethod] at hkeep
      exact ⟨userNext_noFault huser, hkeep⟩
  | seekBeginning reply =>
    have hmethod := hguard rfl
    have hsaved := hinv.saved
    rw [if_pos hmethod] at hsaved
    simp only [History.call, seekBeginning, History.sought, Option.some.injEq, Prod.mk.injEq] at hcall
    obtain ⟨rfl, rfl⟩ := hcall
    refine ⟨reply.noFault, .of_user hmethod hsaved (afterSeeking_ne_ended reply.status_ne_ended)
      fun x hx => ?_⟩
    cases reply <;> cases hx
    rfl
  | seekNsFromOrigin t reply replies =>
    have hmethod := hguard rfl
    have hsaved := hinv.saved
    rw [if_pos hmethod] at hsaved
    simp only [History.call, seekNsFromOrigin, Option.map_eq_some_iff] at hcall
    obtain ⟨⟨status', it⟩, hseek, hcall⟩ := hcall
    cases hcall
    split at hseek
    · simp only [Option.bind_eq_bind, Option.bind_eq_some_iff] at hseek
      obtain ⟨⟨status'', it'⟩, hauto, hseek⟩ := hseek
      cases hseek
      obtain ⟨hnoFault, hended, hfailed, hok⟩ :=
        autoSeek_inv { h.it with rest := upstream } hmethod hsaved rfl hauto
      refine ⟨hnoFault, ?_⟩
      by_cases hstatus : status'' = .ok
      · subst hstatus
        exact hok rfl
      · obtain ⟨hnext', hsaved'⟩ := hfailed hstatus
        refine .of_user hnext' hsaved' (afterSeeking_ne_ended hended) fun x hx => ?_
        simp only [hstatus, if_false] at hx
        cases hx
    · rename_i hreply
      cases hseek
      refine ⟨reply.noFault, .of_user hmethod hsaved
        (afterSeeking_ne_ended reply.status_ne_ended) fun x hx => ?_⟩
      cases reply <;> first | exact absurd rfl hreply | cases hx

theorem History.inv_of_steps (hrun : Relation.ReflTransGen (Step order upstream) (.new upstream) h) :
    h.Inv order upstream := by
  induction hrun with
  | refl => exact History.new_inv
  | tail _ hstep ih =>
    obtain ⟨call, status, hguard, hcall⟩ := hstep
    exact (ih.step hguard hcall).2

end

inductive FreshRun (order : List StreamEntry → List StreamEntry) (upstream : List Msg)
    (target : Target) : History → Prop
  | seek {call : Call} {h : History} (hseek : call.isSeek = true)
      (hcall : (History.new upstream).call order upstream call = some (.ok, h))
      (htarget : h.target = some target) : FreshRun order upstream target h
  | next {h h' : History} {reply : Reply} {status : Status}
      (hrun : FreshRun order upstream target h)
      (hcall : h.call order upstream (.next reply) = some (status, h')) :
      FreshRun order upstream target h'

section

variable {order : List StreamEntry → List StreamEntry} {upstream : List Msg}

theorem call_next_target {h h' : History}
    (hcall : h.call order upstream (.next reply) = some (status, h')) : h'.target = h.target := by
  simp only [History.call, Option.bind_eq_bind, Option.bind_eq_some_iff] at hcall
  obtain ⟨⟨status', msgs, it⟩, -, hcall⟩ := hcall
  cases hcall
  rfl

theorem FreshRun.inv {target : Target} {h : History} (hrun : FreshRun order upstream target h) :
    h.Inv order upstream ∧ h.target = some target := by
  induction hrun with
  | seek _ hcall htarget => exact ⟨(History.new_inv.step (fun _ => rfl) hcall).2, htarget⟩
  | next _ hcall ih =>
    refine ⟨(ih.1.step (fun hseek => by cases hseek) hcall).2, ?_⟩
    rw [call_next_target hcall]
    exact ih.2

end

/-! ## A stream of events -/

def eventStream : Stream :=
  ⟨0, { defaultClockClass := some nsClockClass, supportsPackets := false
        packetsHaveBeginningDefaultClockSnapshot := false
        packetsHaveEndDefaultClockSnapshot := false, supportsDiscardedEvents := true
        discardedEventsHaveDefaultClockSnapshots := true, supportsDiscardedPackets := false
        discardedPacketsHaveDefaultClockSnapshots := false }⟩

def eventStreamMsgs : List Msg :=
  [.streamBeginning eventStream (some 0), .event eventStream none 0 1,
    .event eventStream none 1 7, .streamEnd eventStream (some 9)]

def eventStreamSought : History :=
  ⟨⟨.active, .postAutoSeek, some .user, [.streamBeginning eventStream (some 5),
    .event eventStream none 1 7, .streamEnd eventStream (some 9)], []⟩, some (.nsFromOrigin 5), []⟩

def eventStreamDrained : History :=
  ⟨⟨.active, .user, none, [], []⟩, some (.nsFromOrigin 5),
    [.streamBeginning eventStream (some 5), .event eventStream none 1 7,
      .streamEnd eventStream (some 9)]⟩

theorem eventStream_steps :
    Relation.ReflTransGen (Step id eventStreamMsgs) (.new eventStreamMsgs) eventStreamDrained := by
  have hseek : Step id eventStreamMsgs (.new eventStreamMsgs) eventStreamSought :=
    ⟨.seekNsFromOrigin 5 .ok [.ok 4], .ok, fun _ => rfl, by decide +kernel⟩
  have hnext : Step id eventStreamMsgs eventStreamSought eventStreamDrained :=
    ⟨.next .again, .ok, fun h => (by cases h), by decide +kernel⟩
  exact .tail (.single hseek) hnext

end Babeltrace.Graph
