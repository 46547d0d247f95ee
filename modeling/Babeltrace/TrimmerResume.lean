import Babeltrace.ClockConversions
import Babeltrace.Trimmer
import Babeltrace.TrimmerBoundStr

/-!
# Resuming a trimmer

The states of `trimmer_msg_iter_next()`. A call which asks to try again and the next one amount to a
single call with the other replies, except when seeking asks to try again in the call which sets the
bounds: the bounds are set, but the state still is the one in which they must not be.
-/
namespace Babeltrace.TrimmerBoundStr.TrimmerBound

def bound (bound : TrimmerBound) : Trimmer.Bound := ⟨bound.nsFromOrigin, bound.isInfinite⟩

def target (bound : TrimmerBound) : Option Int64 :=
  if bound.isInfinite then none else some bound.nsFromOrigin

/-- `set_trimmer_iterator_bound()`: `dated` is the time from origin of a time of the day, on the
date of a message. -/
def setOn (dated : TrimmerTime → ℤ → Option Int64) (ns : ℤ) (bound : TrimmerBound) :
    Option TrimmerBound :=
  if bound.isSet then some bound
  else
    (dated bound.time ns).map fun nsFromOrigin => { bound with nsFromOrigin, isSet := true }

end Babeltrace.TrimmerBoundStr.TrimmerBound

namespace Babeltrace.Trimmer
open TraceIr Babeltrace.Graph Excepts
open TrimmerBoundStr (TrimmerTime TrimmerBound)

def validateTrimmerBounds (beginBound endBound : TrimmerBound) : Bool :=
  !(!beginBound.isInfinite && !endBound.isInfinite &&
    decide (endBound.nsFromOrigin < beginBound.nsFromOrigin)) &&
  !(!beginBound.isInfinite && beginBound.nsFromOrigin == Int64.minValue) &&
  !(!endBound.isInfinite && endBound.nsFromOrigin == Int64.minValue)

/-- The component and the upstream iterator: its messages until it seeks, and once it has sought a
time or its beginning -/
structure Env where
  dated : TrimmerTime → ℤ → Option Int64
  order : List Entry → List Entry
  beginBound : TrimmerBound
  endBound : TrimmerBound
  initially : List Msg
  canSeek : Option Int64 → Bool
  sought : Option Int64 → List Msg

structure Replies where
  bounds : List Reply
  canSeek : SeekReply
  seek : SeekReply
  trim : List Reply
  deriving Repr

inductive StartState
  | setBoundsNsFromOrigin
  | seekInitially
  deriving DecidableEq, Repr

/-- `trimmer_iterator` until it trims -/
structure Start where
  state : StartState
  beginBound : TrimmerBound
  endBound : TrimmerBound
  rest : List Msg

inductive TrimmerIterator
  | starting (start : Start)
  | trimming (bound : Bound) (it : Iter)

/-- `trimmer_msg_iter_init()`, with the bounds of the component -/
def Start.new (env : Env) : Start :=
  ⟨if env.beginBound.isSet && env.endBound.isSet then .seekInitially else .setBoundsNsFromOrigin,
    env.beginBound, env.endBound, env.initially⟩

inductive Called
  | returned (status : Status) (msgs : List Msg) (it : TrimmerIterator)
  | assertion

def Called.msgs : Called → List Msg
  | .returned _ msgs _ => msgs
  | .assertion => []

def Called.Again : Called → Prop
  | .returned status _ _ => status = .again
  | .assertion => False

/-- A failed assertion of the trimmer, or a failed precondition of the library -/
def Called.Aborts : Called → Prop
  | .returned status _ _ => status = .fault .precondition
  | .assertion => True

/-! ## Setting the bounds -/

def firstNsFromOrigin : List Msg → Except HandleErr (Option ℤ)
  | [] => .ok none
  | msg :: msgs =>
    match getMsgNsFromOrigin msg with
    | .error err => .error err
    | .ok none => firstNsFromOrigin msgs
    | .ok (some ns) => .ok (some ns)

section

variable (env : Env)

def Start.setBounds (start : Start) (ns : ℤ) : Option Start := do
  let beginBound ← start.beginBound.setOn env.dated ns
  let endBound ← start.endBound.setOn env.dated ns
  guard (validateTrimmerBounds beginBound endBound)
  return { start with beginBound, endBound }

/-- `none` when there aren't enough replies -/
def stateSetTrimmerIteratorBounds (start : Start) : List Reply → Option (Status × Start)
  | [] => none
  | reply :: replies =>
    match userNext start.rest reply with
    | none => none
    | some (.ok, msgs, rest) =>
      match firstNsFromOrigin msgs with
      | .error _ => some (.error, start)
      | .ok none => stateSetTrimmerIteratorBounds { start with rest } replies
      | .ok (some ns) =>
        match Start.setBounds env { start with rest } ns with
        | none => some (.error, start)
        | some start => some (.ok, start)
    | some (status, _, _) => some (status, start)

/-! ## Whole method -/

def callTrimming (bound : Bound) (call : Option (Status × List Msg × Iter)) : Option Called :=
  call.map fun r => .returned r.1 r.2.1 (.trimming bound r.2.2)

def stateSeekInitially (start : Start) (canSeek seek : SeekReply) : Status :=
  match canSeek.status with
  | .ok => if env.canSeek start.beginBound.target then seek.status else .error
  | status => status

/-- `state_seek_initially()`, and then `state_trim()` when it succeeds -/
def seekAndTrim (capacity : ℕ) (start : Start) (replies : Replies) : Option Called :=
  if start.beginBound.isSet then
    match stateSeekInitially env start replies.canSeek replies.seek with
    | .ok =>
      callTrimming start.endBound.bound (stateTrim env.order start.endBound.bound capacity
        (.new (env.sought start.beginBound.target)) replies.trim)
    | status => some (.returned status [] (.starting start))
  else some .assertion

/-- `trimmer_msg_iter_next()`; `none` when there aren't enough replies -/
def trimmerMsgIterNext (capacity : ℕ) (it : TrimmerIterator) (replies : Replies) : Option Called :=
  match it with
  | .trimming bound it => callTrimming bound (next env.order bound capacity it replies.trim)
  | .starting start =>
    match start.state with
    | .setBoundsNsFromOrigin =>
      if start.beginBound.isSet && start.endBound.isSet then some .assertion
      else
        match stateSetTrimmerIteratorBounds env start replies.bounds with
        | none => none
        | some (.ok, start) => seekAndTrim env capacity start replies
        | some (status, start) => some (.returned status [] (.starting start))
    | .seekInitially => seekAndTrim env capacity start replies

/-- The replies of the upstream iterator satisfy `P`. -/
inductive Runs (P : Replies → Prop) : Called → List Msg → Prop
  | new : Runs P (.returned .ok [] (.starting (.new env))) []
  | next {it : TrimmerIterator} {delivered msgs : List Msg} {status : Status} {capacity : ℕ}
      {replies : Replies} {called : Called}
      (hrun : Runs P (.returned status msgs it) delivered)
      (hstatus : status = .ok ∨ status = .again) (hreplies : P replies)
      (hnext : trimmerMsgIterNext env capacity it replies = some called) :
      Runs P called (delivered ++ called.msgs)

end

def NeverAgain (replies : Replies) : Prop :=
  .again ∉ replies.bounds ∧ replies.canSeek ≠ .again ∧ replies.seek ≠ .again ∧
    .again ∉ replies.trim

def IsAnswer (reply : Reply) : Prop := reply = .ended ∨ ∃ count, reply = .ok count

/-- The upstream iterator neither fails nor asks to try again. -/
def Answers (replies : Replies) : Prop :=
  (∀ reply ∈ replies.bounds ++ replies.trim, IsAnswer reply) ∧
    replies.canSeek = .ok ∧ replies.seek = .ok

def SeeksAtOnce (replies : Replies) : Prop :=
  replies.canSeek ≠ .again ∧ replies.seek ≠ .again

variable {it : TrimmerIterator} {replies : Replies} {start : Start} {called : Called}

section

variable {env : Env} {order : List Entry → List Entry} {bound : Bound} {capacity : ℕ}
  {status : Status} {r : Status × List Msg × Iter} {delivered : List Msg}

/-! ## Preconditions -/

/-- A discarded items message which the end of the range splits doesn't begin after the clock cycle
in which the range ends. -/
def Splits (bound : Bound) : Msg → Prop
  | .discarded _ stream beginCs endCs _ => ∀ cc ∈ stream.cls.defaultClockClass,
    pastEnd bound (cc.time beginCs) = false → pastEnd bound (cc.time endCs) = true →
      cc.Fits bound.nsFromOrigin ∧ (beginCs.toNat : ℤ) ≤ cc.exactValue bound.nsFromOrigin
  | _ => True

section

variable {states : States} {sstate : StreamState} {msg : Msg} {err : HandleErr}

theorem endStream_error {entry : Entry} (h : endStream bound entry = .error err) :
    err ≠ .precondition := by
  grind [endStream, endSnapshot]

theorem endStreams_error {entries : List Entry} (h : endStreams bound entries = .error err) :
    err ≠ .precondition := by
  induction entries with
  | nil => cases h
  | cons entry entries ih =>
    rw [endStreams] at h
    split at h
    · rename_i hentry
      cases h
      exact endStream_error hentry
    · cases hrest : endStreams bound entries <;> simp_all [Except.map]

theorem endIteratorStreams_error (h : endIteratorStreams order bound states = .error err) :
    err ≠ .precondition := by
  unfold endIteratorStreams at h
  split at h
  · cases h
  · exact endStreams_error h

theorem handleDiscarded_error {items : DiscardedItems} {stream : Stream} {beginCs endCs : UInt64}
    {count : Option ℕ} (hsplits : Splits bound (.discarded items stream beginCs endCs count))
    (h : handleDiscarded bound states sstate items stream beginCs endCs count
      (Msg.discarded items stream beginCs endCs count).time = .error err) : err ≠ .precondition := by
  unfold handleDiscarded at h
  split at h
  · rename_i ns cc hns hcc
    have hbegin : (Msg.discarded items stream beginCs endCs count).time = cc.time beginCs := by
      rw [Msg.time, Msg.clockSnapshot] at hns ⊢
      split at hns
      · rw [if_pos ‹_›, hcc]
        rfl
      · cases hns
    split at h
    · cases h
      simp
    · rename_i endNs hendNs
      split at h
      · cases h
      · rename_i hpast
        split at h
        · rename_i hpastEnd
          rw [hbegin, Bool.not_eq_true] at hpast
          rw [← hendNs] at hpastEnd
          obtain ⟨hfits, hle⟩ := hsplits cc hcc hpast hpastEnd
          split at h
          · cases h
            simp
          · rename_i endRawValue hvalue
            obtain ⟨offset, hoffset, -, hnat⟩ := ClockClass.toNat_of_valueFromNsFromOrigin hvalue
            rw [hfits.toInt_offset hoffset] at hnat
            rw [ClockClass.exactValue, ← hnat] at hle
            rw [if_pos (UInt64.le_iff_toNat_le.mpr (by exact_mod_cast hle))] at h
            cases h
        · cases h
  · cases h
    simp

theorem handleMessage_error (hsplits : Splits bound msg)
    (h : handleMessage bound states msg = .error err) : err ≠ .precondition := by
  unfold handleMessage at h
  split at h
  · grind [getMsgNsFromOrigin, nsOrError, Except.map]
  · rename_i ns hns
    obtain rfl := getMsgNsFromOrigin_time hns
    split at h
    · cases msg with
      | discarded items stream beginCs endCs count =>
        simp only [handleMessageWithStream, handleMessageWithState] at h
        split at h
        · cases h
          simp
        · cases ‹some _ = some _›
          exact handleDiscarded_error hsplits h
      | _ =>
        grind [handleMessageWithStream, handleMessageWithState, createStreamStateEntry, Except.map]
    · split at h <;> cases h

theorem handleBatch_error {it : Iter} {msgs : List Msg} (hsplits : ∀ msg ∈ msgs, Splits bound msg)
    (h : handleBatch order bound it msgs = .error err) : err ≠ .precondition := by
  induction msgs generalizing it with
  | nil => cases h
  | cons msg msgs ih =>
    rw [List.forall_mem_cons] at hsplits
    rw [handleBatch] at h
    split at h
    · rename_i hmsg
      cases h
      exact handleMessage_error hsplits.1 hmsg
    · rename_i states _
      cases hends : endIteratorStreams order bound states <;> rw [hends] at h <;> cases h
      exact endIteratorStreams_error hends
    · exact ih hsplits.2 h

end

theorem status_ne_precondition {err : HandleErr} (h : err ≠ .precondition) :
    err.status ≠ .fault .precondition := by
  cases err <;> simp_all [HandleErr.status]

theorem status_ne_again (err : HandleErr) : err.status ≠ .again := by
  cases err <;> simp [HandleErr.status]

theorem userNext_status {rest rest' msgs : List Msg} {reply : Reply}
    (h : userNext rest reply = some (status, msgs, rest')) :
    status ≠ .fault .precondition ∧ (status = .again ↔ reply = .again) := by
  cases reply <;> simp only [userNext, Option.ite_none_right_eq_some, Option.some.injEq,
    Prod.mk.injEq] at h <;> grind

theorem stateEnding_status {it : Iter} (h : stateEnding capacity it = r) :
    r.1 ≠ .again ∧ r.1 ≠ .fault .precondition ∧ r.2.2.rest = it.rest := by
  grind [stateEnding, fillMessageArray]

/-! ## Loops over replies -/

theorem stateTrim_step {it : Iter} (hempty : it.outputMessages = []) {reply : Reply}
    (hreply : reply ≠ .again) {replies : List Reply}
    (h : stateTrim order bound capacity it (reply :: replies) = some r) :
    (r.1 ≠ .again ∧ stateTrim order bound capacity it [reply] = some r ∧
      ((∀ msg ∈ it.rest, Splits bound msg) →
        r.1 ≠ .fault .precondition ∧ ∀ msg ∈ r.2.2.rest, Splits bound msg)) ∨
    ∃ it', it'.mode = it.mode ∧ (∀ capacity more, stateTrim order bound capacity it (reply :: more) =
        stateTrim order bound capacity it' more) ∧
      ((∀ msg ∈ it.rest, Splits bound msg) → ∀ msg ∈ it'.rest, Splits bound msg) := by
  simp only [stateTrim, if_pos hempty] at h ⊢
  split at h
  · cases h
  · rename_i batch rest hnext
    rw [userNext_ok hnext]
    simp only [List.forall_mem_append]
    cases hbatch : handleBatch order bound { it with rest } batch with
    | error err =>
      simp only [hbatch] at h ⊢
      cases h
      refine .inl ⟨status_ne_again err, rfl, fun hsplits => ⟨?_, ?_⟩⟩
      · exact status_ne_precondition (handleBatch_error hsplits.1 hbatch)
      · rw [userNext_ok hnext, List.forall_mem_append]
        exact hsplits
    | ok batched =>
      obtain ⟨it₁, _ | _⟩ := batched
      all_goals
        obtain ⟨hmode₁, hrest₁⟩ := handleBatch_frame hbatch
        simp only [hbatch] at h ⊢
      · exact .inr ⟨it₁, hmode₁, fun _ _ => rfl, fun hsplits => hrest₁ ▸ hsplits.2⟩
      · obtain ⟨hagain, hpre, hrest⟩ := stateEnding_status (Option.some.inj h)
        refine .inl ⟨hagain, h, fun hsplits => ⟨hpre, ?_⟩⟩
        rw [hrest, hrest₁]
        exact hsplits.2
  · left
    split at h
    · rename_i err hends
      cases h
      exact ⟨status_ne_again err, rfl,
        fun hsplits => ⟨status_ne_precondition (endIteratorStreams_error hends), hsplits⟩⟩
    · obtain ⟨hagain, hpre, hrest⟩ := stateEnding_status (Option.some.inj h)
      exact ⟨hagain, h, fun hsplits => ⟨hpre, hrest ▸ hsplits⟩⟩
  · rename_i hnext
    cases h
    obtain ⟨hpre, hagain⟩ := userNext_status hnext
    exact .inl ⟨mt hagain.mp hreply, rfl, fun hsplits => ⟨hpre, hsplits⟩⟩

-- The call either settles with the replies before the first one which asks to try again, or it
-- stops after them where any other replies can follow.
theorem stateTrim_spec {it : Iter} (hmode : it.mode = .trim) {replies : List Reply}
    (h : stateTrim order bound capacity it replies = some r) :
    ((∀ msg ∈ it.rest, Splits bound msg) →
      r.1 ≠ .fault .precondition ∧ ∀ msg ∈ r.2.2.rest, Splits bound msg) ∧
    ∃ before, .again ∉ before ∧
      (r.1 ≠ .again ∧ stateTrim order bound capacity it before = some r ∨
      .again ∈ replies ∧ ∃ it', it'.mode = .trim ∧ r = (.again, [], it') ∧ ∀ capacity more,
        stateTrim order bound capacity it (before ++ more) =
          stateTrim order bound capacity it' more) := by
  induction replies generalizing it with
  | nil =>
    rw [stateTrim] at h
    split at h
    · cases h
    · rename_i hne
      cases h
      exact ⟨fun hsplits => ⟨by simp [fillMessageArray], hsplits⟩, [], List.not_mem_nil,
        .inl ⟨by simp [fillMessageArray], if_neg hne⟩⟩
  | cons reply replies ih =>
    by_cases hempty : it.outputMessages = []
    · by_cases hreply : reply = .again
      · rw [hreply, stateTrim, if_pos hempty] at h
        cases h
        exact ⟨fun hsplits => ⟨by simp, hsplits⟩, [], List.not_mem_nil,
          .inr ⟨by simp [hreply], it, hmode, rfl, fun _ _ => rfl⟩⟩
      · obtain ⟨hagain, hone, hstatus⟩ | ⟨it₁, hmode₁, hcons, hsplits⟩ :=
          stateTrim_step hempty hreply h
        · exact ⟨hstatus, [reply], by simpa using Ne.symm hreply, .inl ⟨hagain, hone⟩⟩
        · obtain ⟨hstatus, before, hbefore, hcases⟩ := ih (hmode₁.trans hmode) (hcons _ _ ▸ h)
          refine ⟨fun h => hstatus (hsplits h), reply :: before,
            by simpa using ⟨Ne.symm hreply, hbefore⟩, ?_⟩
          simp only [List.cons_append, hcons]
          exact hcases.imp_right (.imp_left (List.mem_cons_of_mem reply))
    · rw [stateTrim, if_neg hempty] at h
      cases h
      exact ⟨fun hsplits => ⟨by simp [fillMessageArray], hsplits⟩, [], List.not_mem_nil,
        .inl ⟨by simp [fillMessageArray], if_neg hempty⟩⟩

/-- The ends of the range which the component may have -/
def MayEnd (env : Env) (endBound : TrimmerBound) (bound : Bound) : Prop :=
  ∃ ns endBound', endBound.setOn env.dated ns = some endBound' ∧ bound = endBound'.bound

theorem Start.setBounds_isSet {start' : Start} {ns : ℤ} (h : start.setBounds env ns = some start') :
    start'.beginBound.isSet = true ∧ start.endBound.setOn env.dated ns = some start'.endBound := by
  simp only [Start.setBounds, Option.bind_eq_bind, Option.bind_eq_some_iff] at h
  obtain ⟨beginBound, hbegin, endBound, hend, _, -, heq⟩ := h
  cases heq
  refine ⟨?_, hend⟩
  unfold TrimmerBound.setOn at hbegin
  split at hbegin
  · rename_i hset
    cases hbegin
    exact hset
  · obtain ⟨ns, -, rfl⟩ := Option.map_eq_some_iff.mp hbegin
    rfl

theorem stateSetTrimmerIteratorBounds_spec {replies : List Reply} {r : Status × Start}
    (h : stateSetTrimmerIteratorBounds env start replies = some r) :
    ((r.1 = .ok ∧ r.2.beginBound.isSet = true ∧
        MayEnd env start.endBound r.2.endBound.bound) ∨
      (r.1 ≠ .ok ∧ r.1 ≠ .fault .precondition ∧ ∃ rest, r.2 = { start with rest })) ∧
    ∃ before, .again ∉ before ∧
      (r.1 ≠ .again ∧ stateSetTrimmerIteratorBounds env start before = some r ∨
      .again ∈ replies ∧ ∃ rest, r = (.again, { start with rest }) ∧ ∀ more,
        stateSetTrimmerIteratorBounds env start (before ++ more) =
          stateSetTrimmerIteratorBounds env { start with rest } more) := by
  induction replies generalizing start with
  | nil => cases h
  | cons reply replies ih =>
    by_cases hreply : reply = .again
    · rw [hreply] at h
      cases h
      exact ⟨.inr ⟨by simp, by simp, start.rest, rfl⟩, [], List.not_mem_nil,
        .inr ⟨by simp [hreply], start.rest, rfl, fun _ => rfl⟩⟩
    · have hone : .again ∉ [reply] := by simpa using Ne.symm hreply
      simp only [stateSetTrimmerIteratorBounds] at h
      split at h
      · cases h
      · rename_i msgs rest hnext
        cases hfirst : firstNsFromOrigin msgs with
        | error err =>
          rw [hfirst] at h
          cases h
          refine ⟨.inr ⟨by simp, by simp, start.rest, rfl⟩, [reply], hone, .inl ⟨by simp, ?_⟩⟩
          simp only [stateSetTrimmerIteratorBounds, hnext, hfirst]
        | ok ns =>
          cases ns with
          | none =>
            rw [hfirst] at h
            obtain ⟨hset, before, hbefore, hcases⟩ := ih h
            refine ⟨hset, reply :: before, by simpa using ⟨Ne.symm hreply, hbefore⟩, ?_⟩
            simp only [List.cons_append, stateSetTrimmerIteratorBounds, hnext, hfirst]
            exact hcases.imp_right (.imp_left (List.mem_cons_of_mem reply))
          | some ns =>
            cases hbounds : Start.setBounds env { start with rest } ns with
            | none =>
              simp only [hfirst, hbounds] at h
              cases h
              refine ⟨.inr ⟨by simp, by simp, start.rest, rfl⟩, [reply], hone, .inl ⟨by simp, ?_⟩⟩
              simp only [stateSetTrimmerIteratorBounds, hnext, hfirst, hbounds]
            | some start' =>
              simp only [hfirst, hbounds] at h
              cases h
              obtain ⟨hbegin, hend⟩ := Start.setBounds_isSet hbounds
              refine ⟨.inl ⟨rfl, hbegin, _, _, hend, rfl⟩, [reply], hone, .inl ⟨by simp, ?_⟩⟩
              simp only [stateSetTrimmerIteratorBounds, hnext, hfirst, hbounds]
      · rename_i hok hnext
        cases h
        obtain ⟨hpre, hagain⟩ := userNext_status hnext
        refine ⟨.inr ⟨hok, hpre, start.rest, rfl⟩, [reply], hone, .inl ⟨mt hagain.mp hreply, ?_⟩⟩
        simp only [stateSetTrimmerIteratorBounds, hnext]

/-! ## Calls -/

/-- What a call from `it'` does, a call from `it` can do too. -/
def Resumes (env : Env) (it it' : TrimmerIterator) : Prop :=
  ∀ capacity replies called, NeverAgain replies →
    trimmerMsgIterNext env capacity it' replies = some called →
    ∃ replies', NeverAgain replies' ∧
      trimmerMsgIterNext env capacity it replies' = some called

/-- What a call with these replies does, one from `it` without the replies which ask to try again
does too. -/
inductive CallResumes (env : Env) (capacity : ℕ) (it : TrimmerIterator) (replies : Replies) :
    Called → Prop
  | settled {called : Called} {replies' : Replies} (hagain : ¬called.Again)
      (hreplies : NeverAgain replies')
      (h : trimmerMsgIterNext env capacity it replies' = some called) :
      CallResumes env capacity it replies called
  | again {it' : TrimmerIterator} (hreplies : ¬NeverAgain replies)
      (h : Resumes env it it') :
      CallResumes env capacity it replies (.returned .again [] it')

theorem callTrimming_eq_some {call : Option (Status × List Msg × Iter)}
    (h : callTrimming bound call = some called) :
    ∃ status msgs it, call = some (status, msgs, it) ∧
      called = .returned status msgs (.trimming bound it) := by
  obtain ⟨⟨status, msgs, it⟩, hcall, rfl⟩ := Option.map_eq_some_iff.mp h
  exact ⟨status, msgs, it, hcall, rfl⟩

theorem trimming_resumes {it : Iter}
    (h : trimmerMsgIterNext env capacity (.trimming bound it) replies =
      some called) :
    CallResumes env capacity (.trimming bound it) replies called := by
  obtain ⟨status, msgs, it', hnext, rfl⟩ := callTrimming_eq_some h
  have settles {before : List Reply} (hagain : status ≠ .again) (hbefore : .again ∉ before)
      (h : next env.order bound capacity it before = some (status, msgs, it')) :
      CallResumes env capacity (.trimming bound it) replies
        (.returned status msgs (.trimming bound it')) := by
    have hreplies : NeverAgain ⟨[], .ok, .ok, before⟩ := by simpa [NeverAgain] using hbefore
    refine .settled hagain hreplies ?_
    simp only [trimmerMsgIterNext, h, callTrimming, Option.map_some]
  cases hmode : it.mode with
  | trim =>
    simp only [next, hmode] at hnext
    obtain ⟨-, before, hbefore, ⟨hagain, heq⟩ | ⟨hreplies, it₁, hmode₁, hr, hmore⟩⟩ :=
      stateTrim_spec hmode hnext
    · exact settles hagain hbefore (by simpa only [next, hmode] using heq)
    · cases hr
      refine .again (fun h => h.2.2.2 hreplies) fun capacity replies called hreplies h => ?_
      refine ⟨⟨[], .ok, .ok, before ++ replies.trim⟩, ?_, ?_⟩
      · simpa [NeverAgain, hbefore] using hreplies.2.2.2
      · simpa only [trimmerMsgIterNext, next, hmode, hmode₁, hmore] using h
  | ending | ended =>
    have hagain : status ≠ .again := by
      simp only [next, hmode, Option.some.injEq] at hnext
      first | exact (stateEnding_status hnext).1 | (cases hnext; simp)
    exact settles hagain List.not_mem_nil (by simpa only [next, hmode] using hnext)

theorem stateSeekInitially_spec (env : Env) (start : Start) (replies : Replies) :
    ∃ status, stateSeekInitially env start replies.canSeek replies.seek = status ∧
      status ≠ .fault .precondition ∧ (status = .again ∧ ¬SeeksAtOnce replies ∨
      status ≠ .again ∧ ∃ canSeek seek, canSeek ≠ .again ∧ seek ≠ .again ∧
        stateSeekInitially env start canSeek seek = status) := by
  obtain ⟨-, canSeek, seek, -⟩ := replies
  refine ⟨_, rfl, ?_⟩
  cases canSeek with
  | again =>
    rw [stateSeekInitially, SeekReply.status]
    exact ⟨by simp, .inl ⟨rfl, fun h => h.1 rfl⟩⟩
  | error =>
    rw [stateSeekInitially, SeekReply.status]
    exact ⟨by simp, .inr ⟨by simp, .error, .ok, by simp, by simp, rfl⟩⟩
  | memoryError =>
    rw [stateSeekInitially, SeekReply.status]
    exact ⟨by simp, .inr ⟨by simp, .memoryError, .ok, by simp, by simp, rfl⟩⟩
  | ok =>
    simp only [stateSeekInitially, SeekReply.status]
    split
    · by_cases hseek : seek = .again
      · subst hseek
        exact ⟨by simp, .inl ⟨rfl, fun h => h.2 rfl⟩⟩
      · refine ⟨?_, .inr ⟨?_, .ok, seek, by simp, hseek, rfl⟩⟩ <;> cases seek <;> simp_all
    · exact ⟨by simp, .inr ⟨by simp, .ok, .ok, by simp, by simp, rfl⟩⟩

theorem seekAndTrim_of_ne_ok (hset : start.beginBound.isSet = true)
    (hstatus : stateSeekInitially env start replies.canSeek replies.seek = status)
    (hok : status ≠ .ok) :
    seekAndTrim env capacity start replies =
      some (.returned status [] (.starting start)) := by
  rw [seekAndTrim, if_pos hset, hstatus]
  split
  · contradiction
  · rfl

theorem CallResumes.of_seekAndTrim {bounds : List Reply} (hbounds : .again ∉ bounds)
    (hit : ∀ capacity canSeek seek trim,
      trimmerMsgIterNext env capacity it ⟨bounds, canSeek, seek, trim⟩ =
        seekAndTrim env capacity start ⟨bounds, canSeek, seek, trim⟩)
    (hseek : it = .starting start ∨ SeeksAtOnce replies)
    (h : seekAndTrim env capacity start replies = some called) :
    CallResumes env capacity it replies called := by
  by_cases hset : start.beginBound.isSet = true
  · obtain ⟨status, hstatus, -, ⟨rfl, hagain⟩ | ⟨hne, canSeek, seek, hcan, hseek', heq⟩⟩ :=
      stateSeekInitially_spec env start replies
    · cases (seekAndTrim_of_ne_ok hset hstatus (by simp)).symm.trans h
      obtain rfl := hseek.resolve_right hagain
      exact .again (fun h => hagain ⟨h.2.1, h.2.2.1⟩) fun _ replies _ hreplies h =>
        ⟨replies, hreplies, h⟩
    by_cases hok : status = .ok
    · subst hok
      simp only [seekAndTrim, if_pos hset, hstatus] at h
      have hcall (capacity : ℕ) (trim : List Reply) :
          trimmerMsgIterNext env capacity it ⟨bounds, canSeek, seek, trim⟩ =
            callTrimming start.endBound.bound (stateTrim env.order start.endBound.bound capacity
              (.new (env.sought start.beginBound.target)) trim) := by
        simp only [hit, seekAndTrim, if_pos hset, heq]
      obtain ⟨status, msgs, it₁, htrim, rfl⟩ := callTrimming_eq_some h
      obtain ⟨-, before, hbefore, ⟨hagain, heq⟩ | ⟨hreplies, it', hmode, hr, hmore⟩⟩ :=
        stateTrim_spec rfl htrim
      · have hreplies : NeverAgain ⟨bounds, canSeek, seek, before⟩ := ⟨hbounds, hcan, hseek', hbefore⟩
        refine .settled hagain hreplies ?_
        rw [hcall, heq]
        rfl
      · cases hr
        refine .again (fun h => h.2.2.2 hreplies) fun capacity replies called hreplies h => ?_
        refine ⟨⟨bounds, canSeek, seek, before ++ replies.trim⟩, ⟨hbounds, hcan, hseek', ?_⟩, ?_⟩
        · simpa [hbefore] using hreplies.2.2.2
        · rw [hcall, hmore]
          simpa only [trimmerMsgIterNext, next, hmode] using h
    · cases (seekAndTrim_of_ne_ok hset hstatus hok).symm.trans h
      have hreplies : NeverAgain ⟨bounds, canSeek, seek, []⟩ :=
        ⟨hbounds, hcan, hseek', List.not_mem_nil⟩
      exact .settled hne hreplies ((hit _ _ _ _).trans (seekAndTrim_of_ne_ok hset heq hok))
  · rw [seekAndTrim, if_neg hset] at h
    cases h
    have hreplies : NeverAgain ⟨bounds, .ok, .ok, []⟩ := by simpa [NeverAgain] using hbounds
    exact .settled not_false hreplies ((hit _ _ _ _).trans (if_neg hset))

theorem starting_resumes (hseek : start.state = .seekInitially ∨ SeeksAtOnce replies)
    (h : trimmerMsgIterNext env capacity (.starting start) replies = some called) :
    CallResumes env capacity (.starting start) replies called := by
  cases hstate : start.state with
  | seekInitially =>
    simp only [trimmerMsgIterNext, hstate] at h
    refine .of_seekAndTrim List.not_mem_nil (fun _ _ _ _ => ?_) (.inl rfl) h
    simp only [trimmerMsgIterNext, hstate]
  | setBoundsNsFromOrigin =>
    have hseek := hseek.resolve_left (by rw [hstate]; simp)
    by_cases hset : (start.beginBound.isSet && start.endBound.isSet) = true
    · simp only [trimmerMsgIterNext, hstate, if_pos hset] at h
      cases h
      have hreplies : NeverAgain ⟨[], .ok, .ok, []⟩ := by simp [NeverAgain]
      refine .settled not_false hreplies ?_
      simp only [trimmerMsgIterNext, hstate, if_pos hset]
    · simp only [trimmerMsgIterNext, hstate, if_neg hset] at h
      cases hloop : stateSetTrimmerIteratorBounds env start replies.bounds with
      | none => simp [hloop] at h
      | some r =>
        obtain ⟨-, bounds, hbounds, ⟨hagain, heq⟩ | ⟨hreplies, rest, rfl, hmore⟩⟩ :=
          stateSetTrimmerIteratorBounds_spec hloop
        · obtain ⟨status, start'⟩ := r
          simp only [hloop] at h
          split at h
          · cases h
          · rename_i hr
            cases hr
            refine .of_seekAndTrim hbounds (fun _ _ _ _ => ?_) (.inr hseek) h
            simp only [trimmerMsgIterNext, hstate, if_neg hset, heq]
          · rename_i hr
            cases hr
            cases h
            have hreplies : NeverAgain ⟨bounds, .ok, .ok, []⟩ := by simpa [NeverAgain] using hbounds
            refine .settled hagain hreplies ?_
            simp only [trimmerMsgIterNext, hstate, if_neg hset, heq]
        · simp only [hloop] at h
          cases h
          refine .again (fun h => h.1 hreplies) fun capacity replies called hreplies h => ?_
          obtain ⟨hbounds', hrest⟩ := hreplies
          refine ⟨{ replies with bounds := bounds ++ replies.bounds }, ⟨?_, hrest⟩, ?_⟩
          · simpa [hbounds] using hbounds'
          · simp only [trimmerMsgIterNext, hstate, if_neg hset, hmore] at h ⊢
            exact h

theorem NeverAgain.not_again (hreplies : NeverAgain replies)
    (h : trimmerMsgIterNext env capacity it replies = some called) :
    ¬called.Again := by
  have hcall : CallResumes env capacity it replies called := by
    cases it with
    | trimming bound it => exact trimming_resumes h
    | starting start => exact starting_resumes (.inr ⟨hreplies.2.1, hreplies.2.2.1⟩) h
  cases hcall with
  | settled hagain => exact hagain
  | again hagain => exact absurd hreplies hagain

theorem exists_stateTrim (order : List Entry → List Entry) (bound : Bound) (capacity : ℕ)
    (it : Iter) :
    ∃ reply, IsAnswer reply ∧ (stateTrim order bound capacity it [reply]).isSome = true := by
  by_cases hempty : it.outputMessages = []
  · cases hrest : it.rest with
    | nil =>
      refine ⟨.ended, .inl rfl, ?_⟩
      cases hends : endIteratorStreams order bound it.streamStates <;>
        simp [stateTrim, hempty, userNext, hrest, hends]
    | cons msg rest =>
      refine ⟨.ok 1, .inr ⟨1, rfl⟩, ?_⟩
      have hone : userNext it.rest (.ok 1) = some (.ok, [msg], rest) := by
        simp [userNext, hrest, msgBatchSize]
      cases hmsg : handleMessage bound it.streamStates msg with
      | error err => simp [stateTrim, hempty, hone, handleBatch, hmsg]
      | ok outcome =>
        cases outcome with
        | push msg' states => simp [stateTrim, hempty, hone, handleBatch, hmsg]
        | reachedEnd states =>
          cases hends : endIteratorStreams order bound states <;>
            simp [stateTrim, hempty, hone, handleBatch, hmsg, hends, Except.map]
  · exact ⟨.ended, .inl rfl, by simp [stateTrim, hempty]⟩

theorem exists_stateSetTrimmerIteratorBounds (env : Env) (start : Start) :
    ∃ replies, (∀ reply ∈ replies, IsAnswer reply) ∧
      (stateSetTrimmerIteratorBounds env start replies).isSome = true := by
  induction hrest : start.rest generalizing start with
  | nil =>
    refine ⟨[.ended], by simp [IsAnswer], ?_⟩
    simp [stateSetTrimmerIteratorBounds, userNext, hrest]
  | cons msg rest ih =>
    have hone : userNext start.rest (.ok 1) = some (.ok, [msg], rest) := by
      simp [userNext, hrest, msgBatchSize]
    obtain ⟨replies, hreplies, h⟩ := ih { start with rest } rfl
    refine ⟨.ok 1 :: replies, List.forall_mem_cons.mpr ⟨.inr ⟨1, rfl⟩, hreplies⟩, ?_⟩
    simp only [stateSetTrimmerIteratorBounds, hone]
    split
    · rfl
    · exact h
    · split <;> rfl

theorem exists_seekAndTrim (env : Env) (capacity : ℕ) (start : Start) (bounds : List Reply) :
    ∃ reply, IsAnswer reply ∧
      (seekAndTrim env capacity start ⟨bounds, .ok, .ok, [reply]⟩).isSome = true := by
  obtain ⟨reply, hreply, htrim⟩ := exists_stateTrim env.order start.endBound.bound capacity
    (.new (env.sought start.beginBound.target))
  refine ⟨reply, hreply, ?_⟩
  unfold seekAndTrim
  split
  · split
    · simpa [callTrimming] using htrim
    · rfl
  · rfl

/-- A call returns once the upstream iterator answers. -/
theorem exists_call (env : Env) (capacity : ℕ) (it : TrimmerIterator) :
    ∃ replies, Answers replies ∧ (trimmerMsgIterNext env capacity it replies).isSome = true := by
  cases it with
  | trimming bound it =>
    obtain ⟨reply, hreply, htrim⟩ := exists_stateTrim env.order bound capacity it
    refine ⟨⟨[], .ok, .ok, [reply]⟩, by simpa [Answers] using hreply, ?_⟩
    cases hmode : it.mode <;> simp [trimmerMsgIterNext, next, hmode, callTrimming, htrim]
  | starting start =>
    cases hstate : start.state with
    | seekInitially =>
      obtain ⟨reply, hreply, h⟩ := exists_seekAndTrim env capacity start []
      refine ⟨⟨[], .ok, .ok, [reply]⟩, by simpa [Answers] using hreply, ?_⟩
      simpa only [trimmerMsgIterNext, hstate] using h
    | setBoundsNsFromOrigin =>
      obtain ⟨bounds, hbounds, hloop⟩ := exists_stateSetTrimmerIteratorBounds env start
      obtain ⟨⟨status, start'⟩, hloop⟩ := Option.isSome_iff_exists.mp hloop
      obtain ⟨reply, hreply, h⟩ := exists_seekAndTrim env capacity start' bounds
      refine ⟨⟨bounds, .ok, .ok, [reply]⟩, ⟨?_, rfl, rfl⟩, ?_⟩
      · rw [List.forall_mem_append]
        exact ⟨hbounds, by simpa using hreply⟩
      · simp only [trimmerMsgIterNext, hstate, hloop]
        split
        · rfl
        · cases status <;> first | exact h | rfl

/-! ## Runs -/

def TrimmerIterator.Sound (env : Env) : TrimmerIterator → Prop
  | .starting start => ∃ rest, start = { Start.new env with rest }
  | .trimming bound it => ∀ msg ∈ it.rest, Splits bound msg

def Called.Sound (env : Env) : Called → Prop
  | .returned status _ it => status ≠ .fault .precondition ∧
    (status = .ok ∨ status = .again → it.Sound env)
  | .assertion => False

variable {P : Replies → Prop}

theorem seekAndTrim_sound (hset : start.beginBound.isSet = true)
    (hsplits : ∀ target, ∀ msg ∈ env.sought target, Splits start.endBound.bound msg)
    (hseek : (TrimmerIterator.starting start).Sound env ∨
      SeeksAtOnce replies)
    (h : seekAndTrim env capacity start replies = some called) :
    called.Sound env := by
  obtain ⟨status, hstatus, hpre, hagain⟩ := stateSeekInitially_spec env start replies
  by_cases hok : status = .ok
  · subst hok
    simp only [seekAndTrim, if_pos hset, hstatus] at h
    obtain ⟨status, msgs, it, hcall, rfl⟩ := callTrimming_eq_some h
    obtain ⟨hne, hrest⟩ := (stateTrim_spec rfl hcall).1 (hsplits start.beginBound.target)
    exact ⟨hne, fun _ => hrest⟩
  · cases (seekAndTrim_of_ne_ok hset hstatus hok).symm.trans h
    refine ⟨hpre, fun h => ?_⟩
    obtain ⟨-, hagain⟩ | ⟨hne, -⟩ := hagain
    · exact hseek.resolve_right hagain
    · exact absurd (h.resolve_left hok) hne

theorem trimmerMsgIterNext_sound (hit : it.Sound env)
    (hseek : (env.beginBound.isSet && env.endBound.isSet) = true ∨ SeeksAtOnce replies)
    (hsplits : ∀ bound, MayEnd env env.endBound bound → ∀ target, ∀ msg ∈ env.sought target,
      Splits bound msg)
    (h : trimmerMsgIterNext env capacity it replies = some called) :
    called.Sound env := by
  cases it with
  | trimming bound it =>
    obtain ⟨status, msgs, it', hnext, rfl⟩ := callTrimming_eq_some h
    unfold next at hnext
    split at hnext
    · rename_i hmode
      obtain ⟨hne, hrest⟩ := (stateTrim_spec hmode hnext).1 hit
      exact ⟨hne, fun _ => hrest⟩
    · obtain ⟨-, hpre, hrest⟩ := stateEnding_status (Option.some.inj hnext)
      exact ⟨hpre, fun _ msg hmsg => hit msg (hrest ▸ hmsg)⟩
    · cases hnext
      exact ⟨by simp, fun _ => hit⟩
  | starting start =>
    obtain ⟨rest, rfl⟩ := hit
    cases hfull : env.beginBound.isSet && env.endBound.isSet with
    | true =>
      obtain ⟨hbegin, hend⟩ := Bool.and_eq_true_iff.mp hfull
      simp only [trimmerMsgIterNext, Start.new, hfull, if_true] at h
      refine seekAndTrim_sound hbegin (hsplits _ ⟨0, env.endBound, ?_, rfl⟩) (.inl ⟨rest, ?_⟩) h
      · exact if_pos hend
      · simp only [Start.new, hfull, if_true]
    | false =>
      rw [hfull] at hseek
      simp only [trimmerMsgIterNext, Start.new, hfull, Bool.false_eq_true, if_false] at h
      split at h
      · cases h
      · rename_i start' hloop
        obtain ⟨-, hbegin, hend⟩ | ⟨hne, -⟩ := (stateSetTrimmerIteratorBounds_spec hloop).1
        · exact seekAndTrim_sound hbegin (hsplits _ hend) (.inr (hseek.resolve_left (by simp))) h
        · exact absurd rfl hne
      · rename_i status start' hne hloop
        cases h
        obtain ⟨hok, -⟩ | ⟨-, hpre, rest, rfl⟩ := (stateSetTrimmerIteratorBounds_spec hloop).1
        · exact (hne hok).elim
        · refine ⟨hpre, fun _ => ⟨rest, ?_⟩⟩
          simp only [Start.new, hfull, Bool.false_eq_true, if_false]

inductive Matched (env : Env) : Called → List Msg → Prop
  | settled {called : Called} {delivered : List Msg}
      (h : Runs env NeverAgain called delivered) :
      Matched env called delivered
  | again {it it' : TrimmerIterator} {status : Status} {msgs delivered : List Msg}
      (h : Runs env NeverAgain (.returned status msgs it)
        delivered) (hstatus : status = .ok ∨ status = .again)
      (hit : Resumes env it it') :
      Matched env (.returned .again [] it') delivered

theorem Matched.next {msgs delivered : List Msg}
    (h : Matched env (.returned status msgs it) delivered)
    (hstatus : status = .ok ∨ status = .again)
    (hcall : CallResumes env capacity it replies called) :
    Matched env called (delivered ++ called.msgs) := by
  obtain ⟨it₀, status₀, msgs₀, hrun, hstatus₀, hit⟩ : ∃ it₀ status₀ msgs₀,
      Runs env NeverAgain (.returned status₀ msgs₀ it₀)
        delivered ∧ (status₀ = .ok ∨ status₀ = .again) ∧ Resumes env it₀ it := by
    cases h with
    | settled h => exact ⟨it, status, msgs, h, hstatus, fun _ replies _ hr h => ⟨replies, hr, h⟩⟩
    | again h hstatus' hit => exact ⟨_, _, _, h, hstatus', hit⟩
  cases hcall with
  | settled _ hreplies hnext =>
    obtain ⟨replies', hreplies', hnext'⟩ := hit _ _ _ hreplies hnext
    exact .settled (.next hrun hstatus₀ hreplies' hnext')
  | again _ hresumes =>
    simp only [Called.msgs, List.append_nil]
    refine .again hrun hstatus₀ fun capacity replies called hreplies hnext => ?_
    obtain ⟨replies₁, hreplies₁, hnext₁⟩ := hresumes capacity replies called hreplies hnext
    exact hit capacity replies₁ called hreplies₁ hnext₁

end

/-! ## A stream with two events -/

def timeOfDay (hour : ℕ) : TrimmerBound := ⟨0, false, false, ⟨hour, 0, 0, 0⟩⟩

def knownBound (nsFromOrigin : Int64) : TrimmerBound := ⟨nsFromOrigin, true, false, ⟨0, 0, 0, 0⟩⟩

def eventsEnv (dated : TrimmerTime → ℤ → Option Int64) (beginBound endBound : TrimmerBound) : Env :=
  ⟨dated, id, beginBound, endBound, eventStreamMsgs, fun _ => true, fun _ => eventStreamMsgs⟩

theorem splits_eventStreamMsgs (bound : Bound) {msg : Msg} (hmsg : msg ∈ eventStreamMsgs) :
    Splits bound msg := by
  simp only [eventStreamMsgs, List.mem_cons, List.not_mem_nil, or_false] at hmsg
  rcases hmsg with rfl | rfl | rfl | rfl <;> trivial

def knownEnv : Env := eventsEnv (fun _ _ => none) (knownBound 0) (knownBound 5)

def onFirstDay (time : TrimmerTime) (_ : ℤ) : Option Int64 :=
  some (.ofNat time.hour * 3600000000000)

end Babeltrace.Trimmer
