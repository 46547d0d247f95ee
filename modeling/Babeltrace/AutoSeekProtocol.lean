import Babeltrace.AutoSeekRuns

/-!
# Protocol of the messages after an automatic seek

What follows a seek is: the beginnings of the streams and packets which exist at this point, the
discarded items messages which end at or after it (straddlers), and the remaining messages.
-/
namespace Babeltrace.Graph
open TraceIr KeyedFold

def Msg.atOrAfter (t : Int64) (msg : Msg) : Bool :=
  match msg.time with
  | none => false
  | some ns => t.toInt ≤ ns

def skipped (t : Int64) (msgs : List Msg) : List Msg := msgs.takeWhile fun msg => !msg.atOrAfter t

def kept (t : Int64) (msgs : List Msg) : List Msg := msgs.dropWhile fun msg => !msg.atOrAfter t

/-- What's pushed of a message which begins before the requested time and ends at or after it -/
def straddler (t : Int64) (msg : Msg) : Option Msg :=
  match verdict t msg with
  | .ok (.push msg' false) => some msg'
  | _ => none

def SeekComplete (t : Int64) (upstream out : List Msg) : Prop :=
  ∃ beginnings, out = beginnings ++ (skipped t upstream).filterMap (straddler t) ++ kept t upstream

def phaseAfter (stream : Stream) (msgs : List Msg) : Option Phase :=
  (ofKey Msg.stream stream msgs).foldlM (Phase.step stream.cls) .notBegun

def Phase.Carries : DiscardedItems → Phase → Prop
  | _, .outside => True
  | .events, .inside _ => True
  | _, _ => False

/-- The stream of each straddler still exists, not within a packet for a discarded packets message.
-/
def StraddlersOk (t : Int64) (upstream : List Msg) : Prop :=
  ∀ msg ∈ skipped t upstream, ∀ items stream beginCs endCs count,
    straddler t msg = some (.discarded items stream beginCs endCs count) →
    ∃ phase ∈ phaseAfter stream (skipped t upstream), phase.Carries items

/-! ## Verdicts -/

variable {cs : ClockClass × UInt64} {msg' : Msg} {beginCs endCs : UInt64} {count : Option ℕ}
  {stream' : Stream} {phases' : Stream → Phase} {entries : List StreamEntry}
  {queue queue' : List Msg}

section

variable {t : Int64} {msg : Msg} {v : Verdict}

theorem nsOrError_eq_ok {cc : ClockClass} {value : UInt64} {ns : ℤ} :
    nsOrError cc value = .ok ns ↔ cc.time value = some ns := by
  unfold nsOrError
  cases cc.time value <;> simp

theorem atOrAfter_eq {ns : ℤ} (hcs : msg.clockSnapshot = some cs) (hns : cs.1.time cs.2 = some ns) :
    msg.atOrAfter t = decide (t.toInt ≤ ns) := by
  simp only [Msg.atOrAfter, Msg.time, hcs, Option.bind_some, hns]

theorem atOrAfter_of_none (hcs : msg.clockSnapshot = none) : msg.atOrAfter t = false := by
  simp only [Msg.atOrAfter, Msg.time, hcs, Option.bind_none]

theorem verdictOf_eq_ok (hcs : msg.clockSnapshot = some cs) (h : verdictOf t msg cs = .ok v) :
    v = if msg.atOrAfter t then .push msg true else .skip := by
  simp only [verdictOf] at h
  cases hns : nsOrError cs.1 cs.2 with
  | error err =>
    rw [hns] at h
    cases h
  | ok ns =>
    rw [hns] at h
    rw [atOrAfter_eq hcs (nsOrError_eq_ok.mp hns)]
    cases h
    simp only [decide_eq_true_eq]

theorem verdict_cases (h : verdict t msg = .ok v) :
    (msg.atOrAfter t = true ∧ v = .push msg true) ∨
    (msg.atOrAfter t = false ∧ v = .skip) ∨
    (msg.atOrAfter t = false ∧ ∃ items stream beginCs endCs count cc newBegin,
      msg = .discarded items stream beginCs endCs count ∧
      stream.cls.discardedHaveDefaultClockSnapshots items = true ∧
      stream.cls.defaultClockClass = some cc ∧ cc.valueFromNsFromOrigin t = some newBegin ∧
      v = .push (.discarded items stream newBegin endCs none) false) := by
  have hsingle : ∀ {cs}, msg.clockSnapshot = some cs → verdictOf t msg cs = .ok v →
      (msg.atOrAfter t = true ∧ v = .push msg true) ∨ (msg.atOrAfter t = false ∧ v = .skip) := by
    intro cs hcs hv
    rw [verdictOf_eq_ok hcs hv]
    cases msg.atOrAfter t <;> simp
  unfold verdict at h
  split at h
  · rename_i items stream beginCs endCs count
    split at h
    · rename_i hcs
      cases h
      exact .inr (.inl ⟨atOrAfter_of_none hcs, rfl⟩)
    · rename_i cs hcs
      have hcc : stream.cls.discardedHaveDefaultClockSnapshots items = true ∧
          stream.cls.defaultClockClass = some cs.1 ∧ cs.2 = beginCs := by
        simp only [Msg.clockSnapshot, Option.ite_none_right_eq_some, Option.map_eq_some_iff] at hcs
        obtain ⟨hhave, cc, hcc, rfl⟩ := hcs
        exact ⟨hhave, hcc, rfl⟩
      obtain ⟨hhave, hcc, rfl⟩ := hcc
      simp only [verdictOfDiscarded] at h
      cases hns : nsOrError cs.1 cs.2 with
      | error err =>
        rw [hns] at h
        cases h
      | ok ns =>
        have hafter := atOrAfter_eq (t := t) hcs (nsOrError_eq_ok.mp hns)
        rw [hns] at h
        change (if t.toInt ≤ ns then _ else _) = _ at h
        split at h
        · rename_i hle
          cases h
          exact .inl ⟨by rw [hafter, decide_eq_true hle], rfl⟩
        · rename_i hlt
          have hbefore : Msg.atOrAfter t (.discarded items stream cs.2 endCs count) = false := by
            rw [hafter, decide_eq_false hlt]
          cases hend : nsOrError cs.1 endCs with
          | error err =>
            rw [hend] at h
            cases h
          | ok ns' =>
            rw [hend] at h
            change (if t.toInt ≤ ns' then _ else _) = _ at h
            split at h
            · split at h
              · cases h
              · rename_i newBegin hnew
                cases h
                exact .inr (.inr ⟨hbefore, items, stream, cs.2, endCs, count, cs.1, newBegin,
                  rfl, hhave, hcc, hnew, rfl⟩)
            · cases h
              exact .inr (.inl ⟨hbefore, rfl⟩)
  · split at h
    · cases h
    · rename_i cs hcs
      exact (hsingle hcs h).imp_right .inl
  · split at h
    · rename_i hcs
      cases h
      exact .inr (.inl ⟨atOrAfter_of_none hcs, rfl⟩)
    · rename_i cs hcs
      exact (hsingle hcs h).imp_right .inl

theorem straddler_eq_some (h : straddler t msg = some msg') :
    verdict t msg = .ok (.push msg' false) := by
  unfold straddler at h
  split at h
  · rename_i hv
    cases h
    exact hv
  · cases h

theorem straddler_discarded (h : straddler t msg = some msg') :
    ∃ items stream beginCs endCs count cc newBegin,
      msg = .discarded items stream beginCs endCs count ∧
      stream.cls.discardedHaveDefaultClockSnapshots items = true ∧
      stream.cls.defaultClockClass = some cc ∧ cc.valueFromNsFromOrigin t = some newBegin ∧
      msg' = .discarded items stream newBegin endCs none := by
  rcases verdict_cases (straddler_eq_some h) with ⟨-, hv⟩ | ⟨-, hv⟩ |
    ⟨-, items, stream, beginCs, endCs, count, cc, newBegin, hmsg, hhave, hcc, hnew, hv⟩
  · cases hv
  · cases hv
  · cases hv
    exact ⟨items, stream, beginCs, endCs, count, cc, newBegin, hmsg, hhave, hcc, hnew, rfl⟩

end

/-! ## Fast-forward -/

/-- A straddler doesn't change the stream states. -/
def skipStep (t : Int64) (states : StreamStates) (msg : Msg) : Except HandleErr StreamStates :=
  if (straddler t msg).isSome then .ok states else skipMsg states msg

def skipAll (t : Int64) (states : StreamStates) (msgs : List Msg) : Except HandleErr StreamStates :=
  msgs.foldlM (skipStep t) states

variable {msg : Msg} {msgs : List Msg} {phase : Phase} {stream : Stream} {t : Int64}

section

variable {t : Int64} {ff ff' : FastForward} {rest : List Msg}

theorem autoSeekHandleMessage_cases (hff : ff.gotFirst = false)
    (h : autoSeekHandleMessage t ff msg = .ok ff') :
    (msg.atOrAfter t = true ∧ ff'.gotFirst = true ∧ ff'.queue = ff.queue ++ [msg] ∧
      ff'.states = ff.states) ∨
    (msg.atOrAfter t = false ∧ ff'.gotFirst = false ∧
      ff'.queue = ff.queue ++ (straddler t msg).toList ∧
      skipAll t ff.states [msg] = .ok ff'.states) := by
  unfold autoSeekHandleMessage at h
  cases hv : verdict t msg with
  | error err =>
    rw [hv] at h
    cases h
  | ok v =>
    rw [hv] at h
    rcases verdict_cases hv with ⟨hafter, rfl⟩ | ⟨hbefore, rfl⟩ |
      ⟨hbefore, items, stream, beginCs, endCs, count, cc, newBegin, -, -, -, -, rfl⟩
    · cases h
      exact .inl ⟨hafter, rfl, rfl, rfl⟩
    · have hstraddler : straddler t msg = none := by simp only [straddler, hv]
      refine .inr ⟨hbefore, ?_⟩
      change (skipMsg ff.states msg >>= fun states => pure { ff with states }) = _ at h
      cases hskip : skipMsg ff.states msg with
      | error err =>
        rw [hskip] at h
        cases h
      | ok states =>
        rw [hskip] at h
        cases h
        refine ⟨hff, ?_, ?_⟩
        · rw [hstraddler]
          exact (List.append_nil _).symm
        · simp only [skipAll, List.foldlM_cons, List.foldlM_nil, skipStep, hstraddler,
            Option.isSome_none, Bool.false_eq_true, if_false, hskip]
          rfl
    · have hstraddler : straddler t msg = some (.discarded items stream newBegin endCs none) := by
        simp only [straddler, hv]
      cases h
      refine .inr ⟨hbefore, rfl, ?_, ?_⟩
      · rw [hstraddler]
        rfl
      · simp only [skipAll, List.foldlM_cons, List.foldlM_nil, skipStep, hstraddler,
          Option.isSome_some, if_true]
        rfl

theorem fastForward_eq_ok (hff : ff.gotFirst = false) (h : fastForward t ff msgs = .ok (ff', rest)) :
    ff'.queue ++ rest = ff.queue ++ (skipped t msgs).filterMap (straddler t) ++ kept t msgs ∧
      skipAll t ff.states (skipped t msgs) = .ok ff'.states := by
  induction msgs generalizing ff with
  | nil =>
    cases h
    exact ⟨by simp [skipped, kept], rfl⟩
  | cons msg msgs ih =>
    rw [fastForward] at h
    split at h
    · cases h
    · rename_i ff₁ hmsg
      rcases autoSeekHandleMessage_cases hff hmsg with ⟨hafter, hfirst, hqueue, hstates⟩ |
        ⟨hbefore, hfirst, hqueue, hstates⟩
      · rw [if_pos hfirst] at h
        cases h
        simp only [skipped, kept, List.takeWhile_cons, List.dropWhile_cons, hafter, Bool.not_true,
          Bool.false_eq_true, if_false, hqueue, hstates]
        exact ⟨by simp, rfl⟩
      · rw [hfirst] at h
        obtain ⟨ihqueue, ihstates⟩ := ih hfirst h
        have hskipped : skipped t (msg :: msgs) = msg :: skipped t msgs := by
          simp only [skipped, List.takeWhile_cons, hbefore, Bool.not_false, if_true]
        have hkept : kept t (msg :: msgs) = kept t msgs := by
          simp only [kept, List.dropWhile_cons, hbefore, Bool.not_false, if_true]
        rw [hskipped, hkept]
        refine ⟨?_, ?_⟩
        · rw [ihqueue, hqueue]
          cases hs : straddler t msg <;> simp [hs]
        · have hcons : msg :: skipped t msgs = [msg] ++ skipped t msgs := rfl
          unfold skipAll at hstates ihstates ⊢
          rw [hcons, List.foldlM_append, hstates]
          exact ihstates

end

/-! ## Stream states -/

def Phase.Matches (stream : Stream) : Phase → Option AutoSeekStreamState → Prop
  | .notBegun, none | .ended, none => True
  | .outside, some ⟨.streamBegan, _⟩ => True
  | .inside packet, some ⟨.packetBegan packet', _⟩ =>
    packet' = packet ∧ packet.stream = stream ∧ stream.cls.supportsPackets = true
  | _, _ => False

def Phase.BegunBy (stream : Stream) (phase : Phase) (state : Option AutoSeekStreamState)
    (beginning : List Msg) : Prop :=
  if state = none then beginning = []
  else beginning.foldlM (Phase.step stream.cls) .notBegun = some phase

variable {cls : StreamCls} {items : DiscardedItems} {phases : Stream → Phase}
  {order : List StreamEntry → List StreamEntry} {out : List Msg}

theorem Phase.step_discarded {phase' : Phase}
    (h : phase.step cls (.discarded items stream beginCs endCs count) = some phase') :
    phase' = phase ∧ cls.supportsDiscarded items = true ∧ phase.Carries items := by
  cases phase <;> cases items <;>
    simp only [Phase.step, reduceCtorEq, Option.ite_none_right_eq_some, Option.some.injEq] at h
  all_goals exact ⟨h.2.symm, h.1, trivial⟩

theorem Phase.step_of_carries (hsupports : cls.supportsDiscarded items = true)
    (hcarries : phase.Carries items) (stream : Stream) (beginCs endCs : UInt64) (count : Option ℕ) :
    phase.step cls (.discarded items stream beginCs endCs count) = some phase := by
  cases phase <;> cases items <;> first | exact hcarries.elim | exact if_pos hsupports

section

variable {stream : Stream} {states states' : StreamStates} {phase phase' : Phase} {msg : Msg}

theorem updateState_eq_ok {f : AutoSeekStreamState → Option AutoSeekStreamState}
    (h : updateState states stream' f = .ok states') :
    ∃ state state', states.lookup stream' = some state ∧ f state = some state' ∧
      states' = states.insert stream' state' := by
  unfold updateState at h
  split at h
  · cases h
  · rename_i state' hstate
    cases h
    obtain ⟨state, hlookup, hf⟩ := Option.bind_eq_some_iff.mp hstate
    exact ⟨state, state', hlookup, hf, rfl⟩

theorem skipMsg_lookup_ne (h : skipMsg states msg = .ok states') (hne : msg.stream ≠ some stream) :
    states'.lookup stream = states.lookup stream := by
  cases msg with
  | streamBeginning stream' =>
    have hne : stream ≠ stream' := fun heq => hne (heq ▸ rfl)
    simp only [skipMsg] at h
    split at h
    · cases h
    · cases h
      exact AList.lookup_insert_ne hne
  | streamEnd stream' =>
    have hne : stream ≠ stream' := fun heq => hne (heq ▸ rfl)
    simp only [skipMsg] at h
    split at h
    · cases h
      exact AList.lookup_erase_ne hne
    · cases h
  | packetBeginning packet | packetEnd packet =>
    have hne : stream ≠ packet.stream := fun heq => hne (heq ▸ rfl)
    obtain ⟨_, state', _, _, rfl⟩ := updateState_eq_ok h
    exact AList.lookup_insert_ne hne
  | event stream' | discarded _ stream' =>
    have hne : stream ≠ stream' := fun heq => hne (heq ▸ rfl)
    obtain ⟨_, state', _, _, rfl⟩ := updateState_eq_ok h
    exact AList.lookup_insert_ne hne
  | inactivity =>
    cases h
    rfl

theorem Phase.Matches.skipMsg (hmatches : phase.Matches stream (states.lookup stream))
    (hstream : msg.stream = some stream) (hstep : phase.step stream.cls msg = some phase')
    (h : skipMsg states msg = .ok states') : phase'.Matches stream (states'.lookup stream) := by
  cases msg with
  | inactivity => cases hstream
  | streamBeginning stream' =>
    cases hstream
    cases phase <;> cases hstep
    simp only [Graph.skipMsg] at h
    split at h
    · cases h
    · cases h
      rw [AList.lookup_insert]
      trivial
  | streamEnd stream' =>
    cases hstream
    cases phase <;> cases hstep
    simp only [Graph.skipMsg] at h
    split at h
    · cases h
      rw [AList.lookup_erase]
      trivial
    · cases h
  | packetBeginning packet =>
    cases hstream
    obtain ⟨state, state', hlookup, hf, rfl⟩ := updateState_eq_ok h
    cases phase <;> simp only [Phase.step, reduceCtorEq, Option.ite_none_right_eq_some,
      Option.some.injEq] at hstep
    obtain ⟨hcls, rfl⟩ := hstep
    rw [AList.lookup_insert]
    split at hf
    · cases hf
      exact ⟨rfl, rfl, hcls⟩
    · cases hf
  | packetEnd packet =>
    cases hstream
    obtain ⟨state, state', hlookup, hf, rfl⟩ := updateState_eq_ok h
    cases phase <;> simp only [Phase.step, reduceCtorEq, Option.ite_none_right_eq_some,
      Option.some.injEq] at hstep
    obtain ⟨-, rfl⟩ := hstep
    rw [AList.lookup_insert]
    split at hf
    · cases hf
      trivial
    · cases hf
  | event stream' =>
    cases hstream
    obtain ⟨state, state', hlookup, hf, rfl⟩ := updateState_eq_ok h
    rw [hlookup] at hmatches
    rw [AList.lookup_insert]
    cases hf
    cases phase <;> simp only [Phase.step, reduceCtorEq, Option.ite_none_right_eq_some,
      Option.some.injEq] at hstep
    all_goals
      obtain ⟨-, rfl⟩ := hstep
      obtain ⟨_ | _, _⟩ := state
    all_goals exact hmatches
  | discarded items stream' =>
    cases hstream
    obtain ⟨state, state', hlookup, hf, rfl⟩ := updateState_eq_ok h
    rw [hlookup] at hmatches
    rw [AList.lookup_insert]
    cases hf
    obtain ⟨rfl, -, hcarries⟩ := Phase.step_discarded hstep
    obtain ⟨_ | _, _⟩ := state <;> cases phase' <;> exact hmatches

end

theorem skipStep_matches {states states' : StreamStates}
    (hphases : keyedStep Msg.stream (fun stream => Phase.step stream.cls) phases msg = some phases')
    (hskip : skipStep t states msg = .ok states')
    (hmatches : ∀ stream, (phases stream).Matches stream (states.lookup stream)) (stream : Stream) :
    (phases' stream).Matches stream (states'.lookup stream) := by
  by_cases hstream : msg.stream = some stream
  · simp only [keyedStep, hstream, Option.map_eq_some_iff] at hphases
    obtain ⟨phase, hstep, rfl⟩ := hphases
    rw [Function.update_self]
    unfold skipStep at hskip
    split at hskip
    · rename_i hstraddler
      obtain ⟨msg', hmsg'⟩ := Option.isSome_iff_exists.mp hstraddler
      obtain ⟨items, stream', beginCs, endCs, count, -, -, rfl, -⟩ := straddler_discarded hmsg'
      obtain ⟨rfl, -⟩ := Phase.step_discarded hstep
      cases hskip
      exact hmatches stream
    · exact (hmatches stream).skipMsg hstream hstep hskip
  · have hphase : phases' stream = phases stream := by
      cases hs : msg.stream with
      | none =>
        simp only [keyedStep, hs, Option.some.injEq] at hphases
        rw [hphases]
      | some stream' =>
        simp only [keyedStep, hs, Option.map_eq_some_iff] at hphases
        obtain ⟨phase, -, rfl⟩ := hphases
        rw [hs] at hstream
        have hne : stream ≠ stream' := fun heq => hstream (heq ▸ rfl)
        exact Function.update_of_ne hne _ _
    have hlookup : states'.lookup stream = states.lookup stream := by
      unfold skipStep at hskip
      split at hskip
      · cases hskip
        rfl
      · exact skipMsg_lookup_ne hskip hstream
    rw [hphase, hlookup]
    exact hmatches stream

theorem skipAll_matches {states states' : StreamStates}
    (hphases : msgs.foldlM (keyedStep Msg.stream fun stream => Phase.step stream.cls) phases = some phases')
    (hskip : skipAll t states msgs = .ok states')
    (hmatches : ∀ stream, (phases stream).Matches stream (states.lookup stream)) :
    ∀ stream, (phases' stream).Matches stream (states'.lookup stream) := by
  induction msgs generalizing phases states with
  | nil =>
    cases hphases
    cases hskip
    exact hmatches
  | cons msg msgs ih =>
    rw [List.foldlM_cons, Option.bind_eq_bind, Option.bind_eq_some_iff] at hphases
    obtain ⟨phases₁, hstep, hphases⟩ := hphases
    rw [skipAll, List.foldlM_cons] at hskip
    cases hmsg : skipStep t states msg with
    | error err =>
      rw [hmsg] at hskip
      cases hskip
    | ok states₁ =>
      rw [hmsg] at hskip
      exact ih hphases hskip (skipStep_matches hstep hmsg hmatches)

/-! ## Beginnings of streams -/

theorem beginningMsgs_spec {state : AutoSeekStreamState}
    (hmatches : phase.Matches stream (some state)) (h : beginningMsgs t ⟨stream, state⟩ = .ok msgs) :
    (∀ msg ∈ msgs, msg.stream = some stream) ∧
      msgs.foldlM (Phase.step stream.cls) .notBegun = some phase := by
  obtain ⟨step, seen⟩ := state
  unfold beginningMsgs at h
  cases hraw : recreatedSnapshot t ⟨stream, ⟨step, seen⟩⟩ with
  | error err =>
    rw [hraw] at h
    cases h
  | ok raw =>
    rw [hraw] at h
    cases step with
    | streamBegan =>
      cases h
      cases phase <;> first | exact hmatches.elim | skip
      exact ⟨List.forall_mem_singleton.mpr rfl, rfl⟩
    | packetBegan packet =>
      cases phase <;> first | exact hmatches.elim | skip
      obtain ⟨rfl, rfl, hcls⟩ := hmatches
      change (if _ then _ else _) = _ at h
      split at h
      · cases h
      · cases h
        refine ⟨by simp [Msg.stream], ?_⟩
        simp only [List.foldlM_cons, List.foldlM_nil, Phase.step, hcls, if_true]
        rfl

section

variable (h : prependStreams t entries queue = (none, queue'))
  (hentries : ∀ entry ∈ entries, ∀ msgs, beginningMsgs t entry = .ok msgs →
    ∀ msg ∈ msgs, msg.stream = some entry.1)

include h hentries

theorem ofKey_prependStreams_of_notMem (hmem : ∀ entry ∈ entries, entry.1 ≠ stream) :
    ofKey Msg.stream stream queue' = ofKey Msg.stream stream queue := by
  induction entries generalizing queue with
  | nil =>
    cases h
    rfl
  | cons entry entries ih =>
    obtain ⟨hentry, hentries⟩ := List.forall_mem_cons.mp hentries
    obtain ⟨hne, hmem⟩ := List.forall_mem_cons.mp hmem
    simp only [prependStreams] at h
    split at h
    · cases h
    · rename_i msgs hmsgs
      rw [ih h hentries hmem, ofKey_append]
      have hnil : ofKey Msg.stream stream msgs = [] := by
        refine List.filter_eq_nil_iff.mpr fun msg hmsg => ?_
        rw [hentry msgs hmsgs msg hmsg]
        simpa using hne
      rw [hnil, List.nil_append]

theorem ofKey_prependStreams_of_mem {entry : StreamEntry} (hnodup : entries.NodupKeys)
    (hmem : entry ∈ entries) :
    ∃ msgs, beginningMsgs t entry = .ok msgs ∧
      ofKey Msg.stream entry.1 queue' = msgs ++ ofKey Msg.stream entry.1 queue := by
  induction entries generalizing queue with
  | nil => exact absurd hmem List.not_mem_nil
  | cons entry' entries ih =>
    obtain ⟨hentry, hrest⟩ := List.forall_mem_cons.mp hentries
    obtain ⟨hne, hnodup⟩ := List.nodupKeys_cons.mp hnodup
    simp only [prependStreams] at h
    split at h
    · cases h
    · rename_i msgs hmsgs
      rcases List.mem_cons.mp hmem with rfl | hmem
      · refine ⟨msgs, hmsgs, ?_⟩
        have hothers : ∀ entry' ∈ entries, entry'.1 ≠ entry.1 := fun entry' hentry' heq =>
          hne (heq ▸ List.mem_keys_of_mem hentry')
        have hself : ofKey Msg.stream entry.1 msgs = msgs :=
          List.filter_eq_self.mpr fun msg hmsg => by simp [hentry msgs hmsgs msg hmsg]
        rw [ofKey_prependStreams_of_notMem h hrest hothers, ofKey_append, hself]
      · obtain ⟨msgs', hmsgs', hkey⟩ := ih h hrest hnodup hmem
        refine ⟨msgs', hmsgs', ?_⟩
        have hne' : entry'.1 ≠ entry.1 := fun heq => hne (heq ▸ List.mem_keys_of_mem hmem)
        have hnil : ofKey Msg.stream entry.1 msgs = [] := by
          refine List.filter_eq_nil_iff.mpr fun msg hmsg => ?_
          rw [hentry msgs hmsgs msg hmsg]
          simpa using hne'
        rw [hkey, ofKey_append, hnil, List.nil_append]

end

/-! ## Phases along a sequence -/

section

variable {stream : Stream} {phase phase' : Phase} {msgs : List Msg}

theorem Phase.step_ne_notBegun (h : phase.step cls msg = some phase') :
    phase' ≠ .notBegun := by
  unfold Phase.step at h
  split at h <;> (try split at h) <;> cases h <;> exact Phase.noConfusion

theorem eq_nil_of_notBegun
    (h : msgs.foldlM (Phase.step stream.cls) phase = some .notBegun) : msgs = [] := by
  induction msgs generalizing phase with
  | nil => rfl
  | cons msg msgs ih =>
    rw [List.foldlM_cons, Option.bind_eq_bind, Option.bind_eq_some_iff] at h
    obtain ⟨phase', hstep, h⟩ := h
    obtain rfl := ih h
    cases h
    exact absurd rfl (Phase.step_ne_notBegun hstep)

theorem eq_nil_of_ended (h : msgs.foldlM (Phase.step stream.cls) .ended = some phase) :
    msgs = [] := by
  cases msgs with
  | nil => rfl
  | cons msg msgs => cases h

theorem supportsDiscarded_of_mem (h : msgs.foldlM (Phase.step stream.cls) phase = some phase')
    (hmem : .discarded items stream' beginCs endCs count ∈ msgs) :
    stream.cls.supportsDiscarded items = true := by
  induction msgs generalizing phase with
  | nil => exact absurd hmem List.not_mem_nil
  | cons msg msgs ih =>
    rw [List.foldlM_cons, Option.bind_eq_bind, Option.bind_eq_some_iff] at h
    obtain ⟨phase₁, hstep, h⟩ := h
    rcases List.mem_cons.mp hmem with rfl | hmem
    · exact (Phase.step_discarded hstep).2.1
    · exact ih h hmem

theorem foldlM_discarded_iff (phase phase' : Phase)
    (hmsgs : ∀ msg ∈ msgs, ∃ items beginCs endCs count,
      msg = .discarded items stream beginCs endCs count ∧
      stream.cls.supportsDiscarded items = true) :
    msgs.foldlM (Phase.step stream.cls) phase = some phase' ↔
      phase' = phase ∧ ∀ items beginCs endCs count,
        .discarded items stream beginCs endCs count ∈ msgs → phase.Carries items := by
  induction msgs with
  | nil =>
    simp only [List.foldlM_nil, Option.pure_def, Option.some.injEq, List.not_mem_nil, false_imp_iff,
      implies_true, and_true, eq_comm]
  | cons msg msgs ih =>
    obtain ⟨⟨items, beginCs, endCs, count, rfl, hsupports⟩, hrest⟩ :=
      List.forall_mem_cons.mp hmsgs
    rw [List.foldlM_cons, Option.bind_eq_bind, Option.bind_eq_some_iff]
    constructor
    · rintro ⟨phase₁, hstep, h⟩
      obtain ⟨rfl, -, hcarries⟩ := Phase.step_discarded hstep
      obtain ⟨rfl, hall⟩ := (ih hrest).mp h
      refine ⟨rfl, fun items' beginCs' endCs' count' hmem => ?_⟩
      rcases List.mem_cons.mp hmem with heq | hmem
      · cases heq
        exact hcarries
      · exact hall _ _ _ _ hmem
    · rintro ⟨rfl, hall⟩
      refine ⟨phase', Phase.step_of_carries hsupports (hall _ _ _ _ List.mem_cons_self) .., ?_⟩
      exact (ih hrest).mpr ⟨rfl, fun _ _ _ _ hmem => hall _ _ _ _ (List.mem_cons_of_mem _ hmem)⟩

end

section

variable {t : Int64} {upstream : List Msg}

theorem skipped_append_kept (t : Int64) (upstream : List Msg) :
    skipped t upstream ++ kept t upstream = upstream := List.takeWhile_append_dropWhile

theorem exists_phaseAfter (t : Int64) (h : FollowsProtocol upstream) (stream : Stream) :
    ∃ phase, phaseAfter stream (skipped t upstream) = some phase ∧
      ((phase = .notBegun ∧ ofKey Msg.stream stream (kept t upstream) = []) ∨
        (ofKey Msg.stream stream (kept t upstream)).foldlM (Phase.step stream.cls) phase =
          some .ended) := by
  have hsplit : ofKey Msg.stream stream upstream =
      ofKey Msg.stream stream (skipped t upstream) ++ ofKey Msg.stream stream (kept t upstream) := by
    rw [← ofKey_append, skipped_append_kept]
  rcases (followsProtocol_iff upstream).mp h stream with hnil | hended
  · rw [hsplit, List.append_eq_nil_iff] at hnil
    exact ⟨.notBegun, by rw [phaseAfter, hnil.1]; rfl, .inl ⟨rfl, hnil.2⟩⟩
  · rw [hsplit, List.foldlM_append, Option.bind_eq_bind, Option.bind_eq_some_iff] at hended
    obtain ⟨phase, hphase, hkept⟩ := hended
    exact ⟨phase, hphase, .inr hkept⟩

theorem mem_ofKey_straddlers (hphase : phaseAfter stream (skipped t upstream) = some phase) :
    ∀ msg ∈ ofKey Msg.stream stream ((skipped t upstream).filterMap (straddler t)),
      ∃ items beginCs endCs count, msg = .discarded items stream beginCs endCs count ∧
        stream.cls.supportsDiscarded items = true := by
  intro msg hmsg
  obtain ⟨hmem, hstream⟩ := mem_ofKey.mp hmsg
  obtain ⟨msg', hmsg', hstraddler⟩ := List.mem_filterMap.mp hmem
  obtain ⟨items, stream', beginCs, endCs, count, -, newBegin, rfl, -, -, -, rfl⟩ :=
    straddler_discarded hstraddler
  cases hstream
  exact ⟨items, newBegin, endCs, none, rfl,
    supportsDiscarded_of_mem hphase (mem_ofKey.mpr ⟨hmsg', rfl⟩)⟩

theorem ofKey_straddlers_eq_nil (h : ofKey Msg.stream stream (skipped t upstream) = []) :
    ofKey Msg.stream stream ((skipped t upstream).filterMap (straddler t)) = [] := by
  refine List.filter_eq_nil_iff.mpr fun msg hmsg => ?_
  obtain ⟨msg', hmsg', hstraddler⟩ := List.mem_filterMap.mp hmsg
  obtain ⟨items, stream', beginCs, endCs, count, -, newBegin, rfl, -, -, -, rfl⟩ :=
    straddler_discarded hstraddler
  intro hstream
  have hmem : Msg.discarded items stream' beginCs endCs count ∈
      ofKey Msg.stream stream (skipped t upstream) :=
    mem_ofKey.mpr ⟨hmsg', by simpa [Msg.stream] using hstream⟩
  rw [h] at hmem
  exact absurd hmem List.not_mem_nil

theorem stream_protocol_iff {state : Option AutoSeekStreamState}
    {beginning straddlers rest : List Msg} (hmatches : phase.Matches stream state)
    (hbeginning : phase.BegunBy stream state beginning)
    (hstraddlers : ∀ msg ∈ straddlers, ∃ items beginCs endCs count,
      msg = .discarded items stream beginCs endCs count ∧
      stream.cls.supportsDiscarded items = true) (hnotBegun : phase = .notBegun → straddlers = [])
    (hrest : (phase = .notBegun ∧ rest = []) ∨
      rest.foldlM (Phase.step stream.cls) phase = some .ended) :
    (beginning ++ straddlers ++ rest = [] ∨
      (beginning ++ straddlers ++ rest).foldlM (Phase.step stream.cls) .notBegun = some .ended) ↔
      ∀ items beginCs endCs count, .discarded items stream beginCs endCs count ∈ straddlers →
        phase.Carries items := by
  cases state with
  | none =>
    obtain rfl : beginning = [] := by simpa [Phase.BegunBy] using hbeginning
    rw [List.nil_append]
    cases phase <;> first | exact hmatches.elim | skip
    · -- the stream begins later, if ever
      rw [hnotBegun rfl, List.nil_append]
      refine iff_of_true (hrest.imp And.right id) fun _ _ _ _ hmem => ?_
      exact absurd hmem List.not_mem_nil
    · -- the stream is ended
      have hnil : rest = [] := by
        rcases hrest with ⟨h, -⟩ | h
        · cases h
        · exact eq_nil_of_ended h
      rw [hnil, List.append_nil]
      cases straddlers with
      | nil => exact iff_of_true (.inl rfl) fun _ _ _ _ hmem => absurd hmem List.not_mem_nil
      | cons msg straddlers =>
        obtain ⟨⟨items, beginCs, endCs, count, rfl, -⟩, -⟩ := List.forall_mem_cons.mp hstraddlers
        refine iff_of_false ?_ fun h => ?_
        · rintro (h | h) <;> cases h
        · cases items <;> exact h _ _ _ _ List.mem_cons_self
  | some state =>
    have hbeginning : beginning.foldlM (Phase.step stream.cls) .notBegun = some phase := by
      simpa [Phase.BegunBy] using hbeginning
    have hne : phase ≠ .notBegun := by
      rintro rfl
      exact hmatches.elim
    have hrest : rest.foldlM (Phase.step stream.cls) phase = some .ended :=
      hrest.resolve_left fun h => hne h.1
    have hnonempty : beginning ++ straddlers ++ rest ≠ [] := by
      intro h
      rw [List.append_assoc, List.append_eq_nil_iff] at h
      rw [h.1] at hbeginning
      cases hbeginning
      exact hne rfl
    have hiff := fun phase' => foldlM_discarded_iff phase phase' hstraddlers
    rw [or_iff_right hnonempty, List.append_assoc, List.foldlM_append, hbeginning,
      Option.bind_eq_bind, Option.bind_some, List.foldlM_append, Option.bind_eq_bind,
      Option.bind_eq_some_iff]
    constructor
    · rintro ⟨phase', h, -⟩
      exact ((hiff phase').mp h).2
    · intro h
      exact ⟨phase, (hiff phase).mpr ⟨rfl, h⟩, hrest⟩

theorem afterSeek_eq_some (h : afterSeek order upstream (.nsFromOrigin t) = some out) :
    ∃ ff rest queue, fastForward t .init upstream = .ok (ff, rest) ∧
      prependStreams t (order ff.states.entries) ff.queue = (none, queue) ∧ out = queue ++ rest := by
  simp only [afterSeek] at h
  split at h
  · cases h
  · rename_i ff rest hff
    split at h
    · rename_i queue hqueue
      cases h
      exact ⟨ff, rest, queue, hff, hqueue, rfl⟩
    · cases h

theorem seekComplete_of_afterSeek (h : afterSeek order upstream (.nsFromOrigin t) = some out) :
    SeekComplete t upstream out := by
  obtain ⟨ff, rest, queue, hff, hqueue, rfl⟩ := afterSeek_eq_some h
  obtain ⟨hmsgs, -⟩ := fastForward_eq_ok rfl hff
  have hprepend := prependStreams_append t (order ff.states.entries) [] ff.queue
  rw [List.nil_append, hqueue] at hprepend
  refine ⟨(prependStreams t (order ff.states.entries) []).2, ?_⟩
  rw [(Prod.mk.inj hprepend).2, List.append_assoc, hmsgs, List.append_assoc, List.append_assoc]
  rfl

theorem ofKey_afterSeek (horder : ∀ entries, (order entries).Perm entries)
    (hphases : ∀ stream, phaseAfter stream (skipped t upstream) = some (phases stream))
    (h : afterSeek order upstream (.nsFromOrigin t) = some out) (stream : Stream) :
    ∃ state beginning, (phases stream).Matches stream state ∧
      (phases stream).BegunBy stream state beginning ∧
      ofKey Msg.stream stream out = beginning ++
        ofKey Msg.stream stream ((skipped t upstream).filterMap (straddler t)) ++
        ofKey Msg.stream stream (kept t upstream) := by
  obtain ⟨ff, rest, queue, hff, hqueue, rfl⟩ := afterSeek_eq_some h
  obtain ⟨hmsgs, hstates⟩ := fastForward_eq_ok rfl hff
  have hfold : (skipped t upstream).foldlM
      (keyedStep Msg.stream fun stream => Phase.step stream.cls) (fun _ => .notBegun) =
      some phases := (foldlM_keyedStep _ _ _).mpr hphases
  have hmatches := skipAll_matches hfold hstates fun _ => trivial
  have hentry : ∀ entry ∈ order ff.states.entries,
      (phases entry.1).Matches entry.1 (some entry.2) := by
    intro entry hentry
    have hlookup := AList.mem_lookup_iff.mpr ((horder _).mem_iff.mp hentry)
    have := hmatches entry.1
    rwa [Option.mem_def.mp hlookup] at this
  have hentries : ∀ entry ∈ order ff.states.entries, ∀ msgs, beginningMsgs t entry = .ok msgs →
      ∀ msg ∈ msgs, msg.stream = some entry.1 := fun entry hmem msgs hbeginning =>
    (beginningMsgs_spec (hentry entry hmem) hbeginning).1
  have hrest : ofKey Msg.stream stream ff.queue ++ ofKey Msg.stream stream rest =
      ofKey Msg.stream stream ((skipped t upstream).filterMap (straddler t)) ++
        ofKey Msg.stream stream (kept t upstream) := by
    rw [← ofKey_append, hmsgs, ofKey_append]
    rfl
  refine ⟨ff.states.lookup stream, ?_⟩
  cases hlookup : ff.states.lookup stream with
  | none =>
    refine ⟨[], hlookup ▸ hmatches stream, (if_pos rfl).mpr rfl, ?_⟩
    have hne : ∀ entry ∈ order ff.states.entries, entry.1 ≠ stream := by
      rintro ⟨stream', state⟩ hmem rfl
      have := AList.mem_lookup_iff.mpr ((horder _).mem_iff.mp hmem)
      rw [hlookup] at this
      cases this
    rw [ofKey_append, ofKey_prependStreams_of_notMem hqueue hentries hne, hrest]
    rfl
  | some state =>
    have hmem : (⟨stream, state⟩ : StreamEntry) ∈ order ff.states.entries :=
      (horder _).mem_iff.mpr (AList.mem_lookup_iff.mp hlookup)
    have hnodup : (order ff.states.entries).NodupKeys :=
      (List.perm_nodupKeys (horder _)).mpr ff.states.nodupKeys
    obtain ⟨msgs, hbeginning, hkey⟩ := ofKey_prependStreams_of_mem hqueue hentries hnodup hmem
    refine ⟨msgs, hlookup ▸ hmatches stream,
      (if_neg (by simp)).mpr (beginningMsgs_spec (hentry _ hmem) hbeginning).2, ?_⟩
    rw [ofKey_append, hkey, List.append_assoc, hrest, List.append_assoc]

/-- What follows a successful seek is complete and valid exactly when the straddlers may be there.
-/
theorem afterSeek_followsProtocol_iff {order : List StreamEntry → List StreamEntry}
    (horder : ∀ entries, (order entries).Perm entries) {out : List Msg}
    (hupstream : FollowsProtocol upstream)
    (h : afterSeek order upstream (.nsFromOrigin t) = some out) :
    (FollowsProtocol out ∧ SeekComplete t upstream out) ↔ StraddlersOk t upstream := by
  choose phases hphases hkept using exists_phaseAfter t hupstream
  rw [and_iff_left (seekComplete_of_afterSeek h), followsProtocol_iff]
  have hstream : ∀ stream, (ofKey Msg.stream stream out = [] ∨
      (ofKey Msg.stream stream out).foldlM (Phase.step stream.cls) .notBegun = some .ended) ↔
      ∀ items beginCs endCs count, .discarded items stream beginCs endCs count ∈
        ofKey Msg.stream stream ((skipped t upstream).filterMap (straddler t)) →
        (phases stream).Carries items := by
    intro stream
    obtain ⟨state, beginning, hmatches, hbeginning, heq⟩ := ofKey_afterSeek horder hphases h stream
    rw [heq]
    refine stream_protocol_iff hmatches hbeginning (mem_ofKey_straddlers (hphases stream))
      (fun hnot => ?_) (hkept stream)
    have hphase := hphases stream
    rw [hnot] at hphase
    exact ofKey_straddlers_eq_nil (eq_nil_of_notBegun hphase)
  constructor
  · intro hprotocol msg hmsg items stream beginCs endCs count hstraddler
    refine ⟨phases stream, hphases stream, ?_⟩
    refine (hstream stream).mp (hprotocol stream) items beginCs endCs count ?_
    exact mem_ofKey.mpr ⟨List.mem_filterMap.mpr ⟨msg, hmsg, hstraddler⟩, rfl⟩
  · intro hok stream
    refine (hstream stream).mpr fun items beginCs endCs count hmem => ?_
    obtain ⟨msg, hmsg, hstraddler⟩ := List.mem_filterMap.mp (mem_ofKey.mp hmem).1
    obtain ⟨phase, hphase, hcarries⟩ := hok msg hmsg items stream beginCs endCs count hstraddler
    rw [hphases stream] at hphase
    cases hphase
    exact hcarries

end

theorem eventStream_afterSeek_followsProtocol :
    ∃ out, afterSeek id eventStreamMsgs (.nsFromOrigin 5) = some out ∧
      ((FollowsProtocol out ∧ SeekComplete 5 eventStreamMsgs out) ↔
        StraddlersOk 5 eventStreamMsgs) := by
  have hupstream : FollowsProtocol eventStreamMsgs :=
    (followsProtocol_iff_of_stream eventStream (by decide) (by decide)).mpr rfl
  refine ⟨[.streamBeginning eventStream (some 5), .event eventStream none 1 7,
    .streamEnd eventStream (some 9)], by decide +kernel, ?_⟩
  exact afterSeek_followsProtocol_iff (fun _ => List.Perm.refl _) hupstream (by decide +kernel)

/-- A stream of which the beginning and the end have no time, and which has discarded events -/
def discardingStreamMsgs : List Msg :=
  [.streamBeginning eventStream none, .discarded .events eventStream 1 10 none,
    .streamEnd eventStream none]

/-- The discarded events straddle 5 ns: they follow the seek without their stream. -/
theorem afterSeek_straddler_alone :
    FollowsProtocol discardingStreamMsgs ∧
      afterSeek id discardingStreamMsgs (.nsFromOrigin 5) =
        some [.discarded .events eventStream 5 10 none] ∧
      ¬FollowsProtocol [.discarded .events eventStream 5 10 none] := by
  refine ⟨?_, by decide +kernel, ?_⟩
  · exact (followsProtocol_iff_of_stream eventStream (by decide) (by decide)).mpr rfl
  · rw [followsProtocol_iff_of_stream eventStream (by decide) (by decide)]
    decide

end Babeltrace.Graph
