import Mathlib
import Babeltrace.Messages

/-!
# What the sequence checks accept

The checks of `assert_post_dev_next()` (`iterator.c`) accept, for each stream, a regular language,
and report the first message after which no sequence would be accepted.
-/
namespace Babeltrace.Graph
open KeyedFold Computability

/-! ## The checks of all the calls -/

/-- `bt_message_iterator::per_stream_state` -/
abbrev PerStreamStates := AList fun _ : Stream => PerStreamState

inductive Report
  | unexpectedMsg (index : ℕ)
  | streamNotEnded (stream : Stream)
  deriving DecidableEq, Repr

inductive NextCall
  | ok (msgs : List Msg)
  | again

def NextCall.msgs : NextCall → List Msg
  | .ok msgs => msgs
  | .again => []

def returned (calls : List NextCall) : List Msg := calls.flatMap NextCall.msgs

/-- `assert_post_dev_expected_sequence()` and `assert_post_dev_expected_packet()` -/
def checkStreamMsg (states : PerStreamStates) (msg : Msg) : Option PerStreamStates :=
  match msg.stream with
  | none => some states
  | some stream =>
    match checkMsg stream (states.lookup stream) msg with
    | some (some state) => some (states.insert stream state)
    | _ => none

/-- The loop of `assert_post_dev_next()`, `index` messages having been checked already -/
def checkMsgs : PerStreamStates → ℕ → List Msg → Except Report PerStreamStates
  | states, _, [] => .ok states
  | states, index, msg :: msgs =>
    match checkStreamMsg states msg with
    | some states => checkMsgs states (index + 1) msgs
    | none => .error (.unexpectedMsg index)

def checkCalls : PerStreamStates → ℕ → List NextCall → Except Report PerStreamStates
  | states, _, [] => .ok states
  | states, index, .again :: calls => checkCalls states index calls
  | states, index, .ok msgs :: calls => do
    let states ← checkMsgs states index msgs
    checkCalls states (index + msgs.length) calls

/-- What `assert_post_dev_next()` checks when the iterator is ended -/
def checkEnd (states : PerStreamStates) : Except Report Unit :=
  match states.entries.find? fun entry => entry.2.expectedMsgTypes ≠ [] with
  | some entry => .error (.streamNotEnded entry.1)
  | none => .ok ()

def checkRun (calls : List NextCall) : Except Report Unit := do
  checkEnd (← checkCalls ∅ 0 calls)

/-! ## The language of a stream -/

def letter (P : Msg → Prop) : Language Msg := {w | ∃ msg, P msg ∧ w = [msg]}

section

variable {P : Msg → Prop} {l : Language Msg} {msg : Msg} {w : List Msg}

@[simp] theorem nil_notMem_letter : [] ∉ letter P := by
  rintro ⟨msg, -, h⟩
  cases h

@[simp] theorem cons_mem_letter : msg :: w ∈ letter P ↔ P msg ∧ w = [] := by
  constructor
  · rintro ⟨msg', hP, h⟩
    cases h
    exact ⟨hP, rfl⟩
  · rintro ⟨hP, rfl⟩
    exact ⟨msg, hP, rfl⟩

@[simp] theorem nil_notMem_letter_mul : [] ∉ letter P * l := by
  rintro ⟨a, ⟨msg, -, rfl⟩, b, -, h⟩
  cases h

@[simp] theorem cons_mem_letter_mul : msg :: w ∈ letter P * l ↔ P msg ∧ w ∈ l := by
  constructor
  · rintro ⟨a, ⟨msg', hP, rfl⟩, b, hb, h⟩
    cases h
    exact ⟨hP, hb⟩
  · rintro ⟨hP, hw⟩
    exact ⟨[msg], ⟨msg, hP, rfl⟩, w, hw, rfl⟩

end

section

variable (stream : Stream)

def SB : Language Msg := letter fun msg => ∃ cs, msg = .streamBeginning stream cs

def SE : Language Msg := letter fun msg => ∃ cs, msg = .streamEnd stream cs

def PB (packet : Packet) : Language Msg :=
  letter fun msg => packet.stream = stream ∧ ∃ cs, msg = .packetBeginning packet cs

def PE (packet : Packet) : Language Msg :=
  letter fun msg => ∃ cs, msg = .packetEnd packet cs

def E (packet : Option Packet) : Language Msg :=
  letter fun msg => ∃ event cs, msg = .event stream packet event cs

def D (items : DiscardedItems) : Language Msg :=
  letter fun msg => stream.cls.supportsDiscarded items ∧
    ∃ beginCs endCs count, msg = .discarded items stream beginCs endCs count

def packetLang : Language Msg :=
  ⨆ packet, PB stream packet * ((E stream (some packet) + D stream .events)∗ * PE packet)

def contentLang : Language Msg :=
  if stream.cls.supportsPackets then
    packetLang stream + D stream .events + D stream .packets
  else E stream none + D stream .events

def streamLang : Language Msg := SB stream * ((contentLang stream)∗ * SE stream)

def endingFrom (phase : Phase) : Language Msg :=
  {w | (∀ msg ∈ w, msg.stream = some stream) ∧
    w.foldlM (Phase.step stream.cls) phase = some .ended}

end

variable {packet : Packet} {msgs : List Msg}

section

variable {stream : Stream} {phase : Phase} {msg : Msg} {w : List Msg}

theorem nil_mem_endingFrom : [] ∈ endingFrom stream phase ↔ phase = .ended := by
  constructor
  · rintro ⟨-, h⟩
    exact Option.some.inj h
  · rintro rfl
    exact ⟨by simp, rfl⟩

theorem cons_mem_endingFrom : msg :: w ∈ endingFrom stream phase ↔
    msg.stream = some stream ∧
      ∃ phase', phase.step stream.cls msg = some phase' ∧ w ∈ endingFrom stream phase' := by
  have hcons : (msg :: w).foldlM (Phase.step stream.cls) phase =
      (phase.step stream.cls msg).bind fun phase' =>
        w.foldlM (Phase.step stream.cls) phase' := List.foldlM_cons ..
  constructor
  · rintro ⟨hstream, h⟩
    obtain ⟨hmsg, hw⟩ := List.forall_mem_cons.mp hstream
    rw [hcons] at h
    obtain ⟨phase', hstep, hrest⟩ := Option.bind_eq_some_iff.mp h
    exact ⟨hmsg, phase', hstep, hw, hrest⟩
  · rintro ⟨hmsg, phase', hstep, hw, hrest⟩
    refine ⟨List.forall_mem_cons.mpr ⟨hmsg, hw⟩, ?_⟩
    rw [hcons, hstep]
    exact hrest

theorem endingFrom_ended : endingFrom stream .ended = 1 := by
  apply Language.ext
  intro w
  cases w with
  | nil => simp [nil_mem_endingFrom]
  | cons msg w =>
    rw [cons_mem_endingFrom, Language.mem_one]
    simp [Phase.step]

theorem endingFrom_inside (hpacket : packet.stream = stream) :
    endingFrom stream (.inside packet) =
      (E stream (some packet) + D stream .events)∗ *
        (PE packet * endingFrom stream .outside) := by
  rw [← Language.self_eq_mul_add_iff (by simp only [Language.mem_add, E, D, nil_notMem_letter,
    or_self, not_false_eq_true])]
  apply Language.ext
  intro w
  simp only [E, D, PE, add_mul, Language.mem_add]
  cases w with
  | nil => simp only [nil_mem_endingFrom, nil_notMem_letter_mul, reduceCtorEq, or_self]
  | cons msg w =>
    simp only [cons_mem_endingFrom, cons_mem_letter_mul]
    cases msg with
    | packetEnd packet' cs =>
      simp only [Phase.step, Msg.stream, Option.ite_none_right_eq_some, Option.some.injEq,
        reduceCtorEq, exists_const, and_false, false_and, false_or, Msg.packetEnd.injEq,
        exists_and_left, exists_eq', and_true]
      constructor
      · rintro ⟨-, phase, ⟨rfl, rfl⟩, hw⟩
        exact ⟨rfl, hw⟩
      · rintro ⟨rfl, hw⟩
        exact ⟨hpacket, .outside, ⟨rfl, rfl⟩, hw⟩
    | event stream' packet' event cs =>
      simp only [Phase.step, Msg.stream, Option.ite_none_right_eq_some, Option.some.injEq,
        reduceCtorEq, exists_const, and_false, false_and, or_false, Msg.event.injEq,
        exists_and_left, exists_eq', and_true]
      constructor
      · rintro ⟨rfl, phase, ⟨rfl, rfl⟩, hw⟩
        exact ⟨⟨rfl, rfl⟩, hw⟩
      · rintro ⟨⟨rfl, rfl⟩, hw⟩
        exact ⟨rfl, _, ⟨rfl, rfl⟩, hw⟩
    | discarded items stream' beginCs endCs count =>
      cases items with
      | packets => simp [Phase.step]
      | events =>
        simp only [Phase.step, Msg.stream, StreamCls.supportsDiscarded,
          Option.ite_none_right_eq_some, Option.some.injEq, reduceCtorEq, exists_const,
          false_and, or_false, false_or, Msg.discarded.injEq, exists_and_left, exists_eq',
          and_true, true_and]
        constructor
        · rintro ⟨rfl, phase, ⟨hcls, rfl⟩, hw⟩
          exact ⟨⟨hcls, rfl⟩, hw⟩
        · rintro ⟨⟨hcls, rfl⟩, hw⟩
          exact ⟨rfl, _, ⟨hcls, rfl⟩, hw⟩
    | _ => simp [Phase.step]

theorem nil_notMem_contentLang : [] ∉ contentLang stream := by
  unfold contentLang packetLang
  split
  all_goals simp only [Language.mem_add, Language.mem_iSup, PB, E, D, nil_notMem_letter,
    nil_notMem_letter_mul, exists_false, or_self, not_false_eq_true]

theorem cons_mem_packetLang_mul : msg :: w ∈ packetLang stream * endingFrom stream .outside ↔
    ∃ packet cs, msg = .packetBeginning packet cs ∧ packet.stream = stream ∧
      w ∈ endingFrom stream (.inside packet) := by
  simp only [packetLang, Language.iSup_mul, Language.mem_iSup, mul_assoc, PB, cons_mem_letter_mul]
  constructor
  · rintro ⟨packet, ⟨hpacket, cs, rfl⟩, hw⟩
    exact ⟨packet, cs, rfl, hpacket, by rw [endingFrom_inside hpacket]; exact hw⟩
  · rintro ⟨packet, cs, rfl, hpacket, hw⟩
    rw [endingFrom_inside hpacket] at hw
    exact ⟨packet, ⟨hpacket, cs, rfl⟩, hw⟩

theorem nil_notMem_packetLang_mul : [] ∉ packetLang stream * endingFrom stream .outside := by
  simp only [packetLang, Language.iSup_mul, Language.mem_iSup, mul_assoc, PB,
    nil_notMem_letter_mul, exists_false, not_false_eq_true]

theorem endingFrom_outside :
    endingFrom stream .outside = (contentLang stream)∗ * SE stream := by
  rw [← Language.self_eq_mul_add_iff nil_notMem_contentLang]
  apply Language.ext
  intro w
  cases w with
  | nil =>
    unfold contentLang
    split
    all_goals simp only [nil_mem_endingFrom, add_mul, Language.mem_add, E, D, SE, reduceCtorEq,
      nil_notMem_letter_mul, nil_notMem_letter, nil_notMem_packetLang_mul, or_self]
  | cons msg w =>
    have hdiscarded := stream.cls.packets_of_discarded
    unfold contentLang
    cases hcls : stream.cls.supportsPackets with
    | true =>
      simp only [add_mul, Language.mem_add, cons_mem_packetLang_mul, D, SE, cons_mem_letter_mul,
        cons_mem_letter, cons_mem_endingFrom, if_true]
      cases msg with
      | streamEnd stream' cs => simp [Phase.step, Msg.stream, endingFrom_ended]
      | packetBeginning packet cs => simp [Phase.step, Msg.stream, hcls]
      | event stream' packet' event cs => simp [Phase.step, hcls]
      | discarded items stream' beginCs endCs count =>
        cases items <;> simp [Phase.step, Msg.stream, and_comm, and_left_comm]
      | _ => simp [Phase.step]
    | false =>
      simp only [add_mul, Language.mem_add, E, D, SE, cons_mem_letter_mul, cons_mem_letter,
        cons_mem_endingFrom, Bool.false_eq_true, if_false]
      cases msg with
      | streamEnd stream' cs => simp [Phase.step, Msg.stream, endingFrom_ended]
      | packetBeginning packet cs => simp [Phase.step, hcls]
      | event stream' packet' event cs => simp [Phase.step, Msg.stream, hcls, and_assoc]
      | discarded items stream' beginCs endCs count =>
        cases items with
        | events => simp [Phase.step, Msg.stream, and_comm, and_left_comm]
        | packets => simp_all [Phase.step, Msg.stream, StreamCls.supportsDiscarded]
      | _ => simp [Phase.step]

theorem endingFrom_notBegun : endingFrom stream .notBegun = streamLang stream := by
  apply Language.ext
  intro w
  rw [streamLang, ← endingFrom_outside]
  cases w with
  | nil => simp only [nil_mem_endingFrom, SB, nil_notMem_letter_mul, reduceCtorEq]
  | cons msg w =>
    simp only [cons_mem_endingFrom, SB, cons_mem_letter_mul]
    cases msg <;> simp [Phase.step, Msg.stream]

end

def ValidSequence (msgs : List Msg) : Prop :=
  ∀ stream, ofKey Msg.stream stream msgs = [] ∨ ofKey Msg.stream stream msgs ∈ streamLang stream

def Extendable (msgs : List Msg) : Prop := ∃ more, ValidSequence (msgs ++ more)

theorem validSequence_iff (msgs : List Msg) : ValidSequence msgs ↔ FollowsProtocol msgs := by
  rw [followsProtocol_iff]
  refine forall_congr' fun stream => or_congr_right ?_
  rw [← endingFrom_notBegun]
  constructor
  · rintro ⟨-, h⟩
    exact h
  · intro h
    exact ⟨fun msg hmsg => (mem_ofKey.mp hmsg).2, h⟩

/-! ## Extensions -/

def HavePhases (msgs : List Msg) : Prop :=
  ∀ stream, ∃ phase,
    (ofKey Msg.stream stream msgs).foldlM (Phase.step stream.cls) .notBegun = some phase

def closing (stream : Stream) : Phase → List Msg
  | .notBegun => [.streamBeginning stream none, .streamEnd stream none]
  | .outside => [.streamEnd stream none]
  | .inside packet => [.packetEnd packet 0, .streamEnd stream none]
  | .ended => []

theorem foldlM_closing (stream : Stream) (phase : Phase) :
    (closing stream phase).foldlM (Phase.step stream.cls) phase = some .ended := by
  cases phase <;> simp [closing, Phase.step]

theorem Phase.step_eq_inside {cls : StreamCls} {phase : Phase} {msg : Msg}
    (h : phase.step cls msg = some (.inside packet)) :
    phase = .inside packet ∨ ∃ cs, msg = .packetBeginning packet cs := by
  cases phase with
  | notBegun => cases msg <;> simp [Phase.step] at h
  | ended => cases msg <;> simp [Phase.step] at h
  | outside =>
    cases msg with
    | packetBeginning packet' cs =>
      simp only [Phase.step, Option.ite_none_right_eq_some, Option.some.injEq,
        Phase.inside.injEq] at h
      exact .inr ⟨cs, by rw [h.2]⟩
    | _ => simp [Phase.step] at h
  | inside packet' =>
    cases msg with
    | event stream' packet'' event cs =>
      simp only [Phase.step, Option.ite_none_right_eq_some, Option.some.injEq,
        Phase.inside.injEq] at h
      exact .inl (by rw [h.2])
    | discarded items stream' beginCs endCs count =>
      cases items with
      | packets => simp [Phase.step] at h
      | events =>
        simp only [Phase.step, Option.ite_none_right_eq_some, Option.some.injEq,
          Phase.inside.injEq] at h
        exact .inl (by rw [h.2])
    | _ => simp [Phase.step] at h

theorem stream_of_foldlM_inside {stream : Stream} {phase : Phase}
    (hmsgs : ∀ msg ∈ msgs, msg.stream = some stream)
    (hphase : ∀ packet, phase = .inside packet → packet.stream = stream)
    (h : msgs.foldlM (Phase.step stream.cls) phase = some (.inside packet)) :
    packet.stream = stream := by
  induction msgs generalizing phase with
  | nil => exact hphase packet (Option.some.inj h)
  | cons msg msgs ih =>
    obtain ⟨hmsg, hrest⟩ := List.forall_mem_cons.mp hmsgs
    rw [List.foldlM_cons] at h
    obtain ⟨phase', hstep, h⟩ := Option.bind_eq_some_iff.mp h
    refine ih hrest (fun packet' heq => ?_) h
    subst heq
    rcases Phase.step_eq_inside hstep with heq | ⟨cs, rfl⟩
    · exact hphase packet' heq
    · exact Option.some.inj hmsg

theorem stream_of_mem_closing {stream : Stream} {phase : Phase} {msg : Msg}
    (hphase : ∀ packet, phase = .inside packet → packet.stream = stream)
    (hmsg : msg ∈ closing stream phase) : msg.stream = some stream := by
  cases phase with
  | inside packet =>
    simp only [closing, List.mem_cons, List.not_mem_nil, or_false] at hmsg
    rcases hmsg with rfl | rfl
    · rw [Msg.stream, hphase packet rfl]
    · rfl
  | notBegun =>
    simp only [closing, List.mem_cons, List.not_mem_nil, or_false] at hmsg
    rcases hmsg with rfl | rfl <;> rfl
  | outside =>
    rw [List.mem_singleton.mp hmsg]
    rfl
  | ended => cases hmsg

theorem HavePhases.of_append {more : List Msg} (h : ValidSequence (msgs ++ more)) :
    HavePhases msgs := by
  intro stream
  rw [validSequence_iff, followsProtocol_iff] at h
  rcases h stream with hnil | hended
  · rw [ofKey_append, List.append_eq_nil_iff] at hnil
    rw [hnil.1]
    exact ⟨.notBegun, rfl⟩
  · rw [ofKey_append, List.foldlM_append] at hended
    obtain ⟨phase, hphase, -⟩ := Option.bind_eq_some_iff.mp hended
    exact ⟨phase, hphase⟩

theorem HavePhases.extendable (h : HavePhases msgs) : Extendable msgs := by
  choose phase hphase using h
  have hpacket (stream : Stream) (packet : Packet) (heq : phase stream = .inside packet) :
      packet.stream = stream :=
    stream_of_foldlM_inside (fun msg hmsg => (mem_ofKey.mp hmsg).2) (fun _ h => by cases h)
      (heq ▸ hphase stream)
  -- the streams of the messages, each one once
  let streams := (msgs.filterMap Msg.stream).dedup
  let more := streams.flatMap fun stream => closing stream (phase stream)
  have hof (stream : Stream) : ofKey Msg.stream stream more =
      if stream ∈ streams then closing stream (phase stream) else [] :=
    ofKey_flatMap (List.nodup_dedup _)
      (fun stream _ _ hmsg => stream_of_mem_closing (hpacket stream) hmsg) stream
  refine ⟨more, ?_⟩
  rw [validSequence_iff, followsProtocol_iff]
  intro stream
  rw [ofKey_append, hof]
  by_cases hmem : stream ∈ streams
  · refine .inr ?_
    rw [if_pos hmem, List.foldlM_append, hphase]
    exact foldlM_closing stream (phase stream)
  · refine .inl ?_
    rw [if_neg hmem, List.append_nil]
    refine List.filter_eq_nil_iff.mpr fun msg hmsg hstream => hmem ?_
    rw [List.mem_dedup, List.mem_filterMap]
    exact ⟨msg, hmsg, of_decide_eq_true hstream⟩

theorem extendable_iff (msgs : List Msg) : Extendable msgs ↔ HavePhases msgs := by
  constructor
  · rintro ⟨more, h⟩
    exact .of_append h
  · exact HavePhases.extendable

/-! ## What the checks report -/

def PerStreamStates.get (states : PerStreamStates) (stream : Stream) : Option PerStreamState :=
  states.lookup stream

theorem get_insert (states : PerStreamStates) (stream : Stream) (state : PerStreamState) :
    PerStreamStates.get (states.insert stream state) =
      Function.update states.get stream (some state) := by
  funext stream'
  by_cases h : stream' = stream
  · subst h
    rw [Function.update_self]
    exact AList.lookup_insert states
  · rw [Function.update_of_ne h]
    exact AList.lookup_insert_ne h

theorem checkMsg_ne_some_none (stream : Stream) (state : Option PerStreamState) (msg : Msg) :
    checkMsg stream state msg ≠ some none := by
  intro h
  obtain ⟨type, -, h⟩ := Option.bind_eq_some_iff.mp h
  obtain ⟨state', -, h⟩ := Option.bind_eq_some_iff.mp h
  obtain ⟨state'', -, h⟩ := Option.bind_eq_some_iff.mp h
  cases h

theorem checkStreamMsg_eq (states : PerStreamStates) (msg : Msg) :
    keyedStep Msg.stream checkMsg states.get msg =
      (checkStreamMsg states msg).map PerStreamStates.get := by
  unfold keyedStep checkStreamMsg
  cases hstream : msg.stream with
  | none => rfl
  | some stream =>
    have hget : states.get stream = states.lookup stream := rfl
    simp only [hget]
    rcases hcheck : checkMsg stream (states.lookup stream) msg with _ | (_ | state)
    · rfl
    · exact absurd hcheck (checkMsg_ne_some_none _ _ _)
    · exact congrArg some (get_insert states stream state).symm

theorem checkMsgs_cases (states : PerStreamStates) (index : ℕ) (msgs : List Msg) :
    (∃ states', checkMsgs states index msgs = .ok states' ∧
      msgs.foldlM (keyedStep Msg.stream checkMsg) states.get = some states'.get) ∨
    (∃ i < msgs.length, checkMsgs states index msgs = .error (.unexpectedMsg (index + i)) ∧
      ((msgs.take i).foldlM (keyedStep Msg.stream checkMsg) states.get).isSome ∧
      (msgs.take (i + 1)).foldlM (keyedStep Msg.stream checkMsg) states.get = none) := by
  induction msgs generalizing states index with
  | nil => exact .inl ⟨states, rfl, rfl⟩
  | cons msg msgs ih =>
    have hstep := checkStreamMsg_eq states msg
    cases hcheck : checkStreamMsg states msg with
    | none =>
      refine .inr ⟨0, by simp, ?_, rfl, ?_⟩
      · simp only [checkMsgs, hcheck, Nat.add_zero]
      · rw [List.take_succ_cons, List.foldlM_cons, hstep, hcheck]
        rfl
    | some states' =>
      have hfold (msgs : List Msg) :
          (msg :: msgs).foldlM (keyedStep Msg.stream checkMsg) states.get =
            msgs.foldlM (keyedStep Msg.stream checkMsg) states'.get := by
        rw [List.foldlM_cons, hstep, hcheck]
        rfl
      have hmsgs : checkMsgs states index (msg :: msgs) = checkMsgs states' (index + 1) msgs := by
        simp only [checkMsgs, hcheck]
      rcases ih states' (index + 1) with ⟨states'', hok, hrest⟩ | ⟨i, hi, herror, hsome, hnone⟩
      · exact .inl ⟨states'', hmsgs.trans hok, (hfold msgs).trans hrest⟩
      · refine .inr ⟨i + 1, by simpa using hi, ?_, ?_, ?_⟩
        · rw [hmsgs, herror, Nat.add_right_comm, Nat.add_assoc]
        · rw [List.take_succ_cons, hfold]
          exact hsome
        · rw [List.take_succ_cons, hfold]
          exact hnone

theorem checkMsgs_append (states : PerStreamStates) (index : ℕ) (msgs msgs' : List Msg) :
    checkMsgs states index (msgs ++ msgs') =
      checkMsgs states index msgs >>= fun states =>
        checkMsgs states (index + msgs.length) msgs' := by
  induction msgs generalizing states index with
  | nil => rfl
  | cons msg msgs ih =>
    have hlength : index + (msg :: msgs).length = index + 1 + msgs.length := by
      rw [List.length_cons]
      omega
    rw [List.cons_append, hlength]
    cases hcheck : checkStreamMsg states msg with
    | none =>
      simp only [checkMsgs, hcheck]
      rfl
    | some states' =>
      simp only [checkMsgs, hcheck]
      exact ih states' (index + 1)

theorem checkCalls_eq (states : PerStreamStates) (index : ℕ) (calls : List NextCall) :
    checkCalls states index calls = checkMsgs states index (returned calls) := by
  induction calls generalizing states index with
  | nil => rfl
  | cons call calls ih =>
    cases call with
    | again => exact ih states index
    | ok msgs =>
      have happend : returned (.ok msgs :: calls) = msgs ++ returned calls := rfl
      rw [happend, checkMsgs_append, checkCalls]
      exact bind_congr fun states => ih states _

theorem checkEnd_eq_ok (states : PerStreamStates) :
    checkEnd states = .ok () ↔
      ∀ stream, ∀ state ∈ states.get stream, state.expectedMsgTypes = [] := by
  have hfind : checkEnd states = .ok () ↔
      states.entries.find? (fun entry => entry.2.expectedMsgTypes ≠ []) = none := by
    unfold checkEnd
    split <;> simp_all
  rw [hfind, List.find?_eq_none]
  constructor
  · intro h stream state hstate
    simpa using h ⟨stream, state⟩ (AList.mem_lookup_iff.mp hstate)
  · intro h entry hentry
    simpa using h entry.1 entry.2 (AList.mem_lookup_iff.mpr hentry)

theorem isSome_foldlM_iff (msgs : List Msg) :
    (msgs.foldlM (keyedStep Msg.stream checkMsg) fun _ => none).isSome ↔ Extendable msgs := by
  rw [extendable_iff, Option.isSome_iff_exists]
  have hkeys : (∃ states, msgs.foldlM (keyedStep Msg.stream checkMsg) (fun _ => none) =
      some states) ↔ ∀ stream, ∃ state,
        (ofKey Msg.stream stream msgs).foldlM (checkMsg stream) none = some state := by
    simpa using exists_foldlM_keyedStep msgs (fun _ => none) fun _ _ => True
  rw [hkeys]
  refine forall_congr' fun stream => ?_
  obtain ⟨hsome, hnone⟩ := foldlM_checkMsg none (ofKey Msg.stream stream msgs)
    (Phase.is_notBegun stream.cls)
  constructor
  · rintro ⟨state, hstate⟩
    obtain ⟨phase, hphase, -⟩ := hsome state hstate
    exact ⟨phase, hphase⟩
  · rintro ⟨phase, hphase⟩
    refine Option.ne_none_iff_exists'.mp fun heq => ?_
    rw [hnone heq] at hphase
    cases hphase

theorem Extendable.of_append {more : List Msg} (h : Extendable (msgs ++ more)) :
    Extendable msgs := by
  obtain ⟨more', h⟩ := h
  rw [List.append_assoc] at h
  exact ⟨_, h⟩

theorem Extendable.take (h : Extendable msgs) (n : ℕ) :
    Extendable (msgs.take n) :=
  .of_append ((List.take_append_drop n msgs).symm ▸ h)

theorem Extendable.take_of_le {m n : ℕ} (h : Extendable (msgs.take n)) (hle : m ≤ n) :
    Extendable (msgs.take m) := by
  have := h.take m
  rwa [List.take_take, Nat.min_eq_left hle] at this

theorem ValidSequence.extendable (h : ValidSequence msgs) : Extendable msgs :=
  ⟨[], by rwa [List.append_nil]⟩

theorem checkEnd_ne_unexpectedMsg (states : PerStreamStates) (index : ℕ) :
    checkEnd states ≠ .error (.unexpectedMsg index) := by
  unfold checkEnd
  split <;> simp

theorem checkEnd_eq_error (states : PerStreamStates) :
    (∃ stream, checkEnd states = .error (.streamNotEnded stream)) ↔
      ¬checkEnd states = .ok () := by
  unfold checkEnd
  split <;> simp

theorem checkEnd_iff_validSequence {states : PerStreamStates}
    (h : msgs.foldlM (keyedStep Msg.stream checkMsg) (fun _ => none) = some states.get) :
    checkEnd states = .ok () ↔ ValidSequence msgs := by
  rw [validSequence_iff, checkEnd_eq_ok, FollowsProtocol]
  constructor
  · intro hended
    exact ⟨states.get, h, hended⟩
  · rintro ⟨states', hstates', hended⟩
    rw [h] at hstates'
    cases hstates'
    exact hended

end Babeltrace.Graph
