import Babeltrace.AutoSeekProtocol
import Babeltrace.ClockConversions

/-!
# Times of the messages after an automatic seek

The recreated messages and the straddlers get the requested time rounded down to a clock cycle,
which may be before the requested time. A cycle of 1 GHz is a nanosecond: nothing is rounded.
-/
namespace Babeltrace.Graph
open TraceIr

def Msg.NotBefore (t : Int64) (msg : Msg) : Prop := ∀ ns ∈ msg.time, t.toInt ≤ ns

def Stream.HasNsClock (stream : Stream) : Prop :=
  ∀ cc ∈ stream.cls.defaultClockClass, cc.frequency = 1000000000

/-! ## Recreated messages -/

/-- What the automatic seek knows of the streams which it recreates -/
def Recreatable (states : StreamStates) : Prop :=
  ∀ stream state, states.lookup stream = some state →
    stream.HasNsClock ∧ ∀ packet, state.state = .packetBegan packet → packet.stream = stream

variable {msgs : List Msg} {entry : StreamEntry}

section

variable {t : Int64} {states states' : StreamStates} {msg : Msg}

theorem Recreatable.insert (h : Recreatable states) {stream : Stream} {state : AutoSeekStreamState}
    (hclock : stream.HasNsClock)
    (hstate : ∀ packet, state.state = .packetBegan packet → packet.stream = stream) :
    Recreatable (states.insert stream state) := by
  intro stream' state' hlookup
  by_cases heq : stream' = stream
  · subst heq
    rw [AList.lookup_insert] at hlookup
    cases hlookup
    exact ⟨hclock, hstate⟩
  · rw [AList.lookup_insert_ne heq] at hlookup
    exact h stream' state' hlookup

theorem Recreatable.erase (h : Recreatable states) (stream : Stream) :
    Recreatable (states.erase stream) := by
  intro stream' state' hlookup
  by_cases heq : stream' = stream
  · subst heq
    rw [AList.lookup_erase] at hlookup
    cases hlookup
  · rw [AList.lookup_erase_ne heq] at hlookup
    exact h stream' state' hlookup

theorem Recreatable.skipMsg (hstates : Recreatable states)
    (hclock : ∀ stream, msg.stream = some stream → stream.HasNsClock)
    (h : skipMsg states msg = .ok states') : Recreatable states' := by
  cases msg with
  | streamBeginning stream =>
    simp only [Graph.skipMsg] at h
    split at h
    · cases h
    · cases h
      exact hstates.insert (hclock stream rfl) fun _ hpacket => (by cases hpacket)
  | streamEnd stream =>
    simp only [Graph.skipMsg] at h
    split at h
    · cases h
      exact hstates.erase stream
    · cases h
  | packetBeginning packet | packetEnd packet =>
    obtain ⟨state, state', hlookup, hf, rfl⟩ := updateState_eq_ok h
    split at hf
    · cases hf
      exact hstates.insert (hclock _ rfl) fun _ hpacket => (by cases hpacket <;> rfl)
    · cases hf
  | event stream | discarded _ stream =>
    obtain ⟨state, state', hlookup, hf, rfl⟩ := updateState_eq_ok h
    cases hf
    exact hstates.insert (hclock stream rfl) (hstates stream state hlookup).2
  | inactivity =>
    cases h
    exact hstates

theorem Recreatable.skipAll (hstates : Recreatable states)
    (hclock : ∀ msg ∈ msgs, ∀ stream, msg.stream = some stream → stream.HasNsClock)
    (h : skipAll t states msgs = .ok states') : Recreatable states' := by
  induction msgs generalizing states with
  | nil =>
    cases h
    exact hstates
  | cons msg msgs ih =>
    rw [Graph.skipAll, List.foldlM_cons] at h
    rw [List.forall_mem_cons] at hclock
    cases hmsg : skipStep t states msg with
    | error err =>
      rw [hmsg] at h
      cases h
    | ok states₁ =>
      rw [hmsg] at h
      refine ih ?_ hclock.2 h
      unfold skipStep at hmsg
      split at hmsg
      · cases hmsg
        exact hstates
      · exact hstates.skipMsg hclock.1 hmsg

theorem beginningMsgs_eq_ok (h : beginningMsgs t entry = .ok msgs) :
    ∃ raw, recreatedSnapshot t entry = .ok raw ∧
      (msgs = [.streamBeginning entry.1 raw] ∨
        ∃ packet, entry.2.state = .packetBegan packet ∧
          (entry.1.cls.packetsHaveBeginningDefaultClockSnapshot = true → raw.isSome) ∧
          msgs = [.streamBeginning entry.1 raw, .packetBeginning packet (raw.getD 0)]) := by
  unfold beginningMsgs at h
  cases hraw : recreatedSnapshot t entry with
  | error err =>
    rw [hraw] at h
    cases h
  | ok raw =>
    rw [hraw] at h
    refine ⟨raw, rfl, ?_⟩
    cases hstate : entry.2.state with
    | streamBegan =>
      simp only [hstate] at h
      cases h
      exact .inl rfl
    | packetBegan packet =>
      simp only [hstate] at h
      change (if _ then _ else _) = _ at h
      split at h
      · cases h
      · rename_i hhave
        cases h
        refine .inr ⟨packet, rfl, fun hflag => ?_, rfl⟩
        exact Option.isSome_iff_ne_none.mpr fun hnone => hhave ⟨hflag, hnone⟩

theorem recreatedSnapshot_eq_ok {raw : Option UInt64} (h : recreatedSnapshot t entry = .ok raw) :
    raw = none ∨ ∃ cc value, entry.1.cls.defaultClockClass = some cc ∧
      cc.valueFromNsFromOrigin t = some value ∧ raw = some value := by
  unfold recreatedSnapshot at h
  split at h
  · split at h
    · cases h
    · rename_i cc hcc
      split at h
      · cases h
      · rename_i value hvalue
        cases h
        exact .inr ⟨cc, value, hcc, hvalue, rfl⟩
  · cases h
    exact .inl rfl

theorem beginningMsgs_notBefore (hclock : entry.1.HasNsClock)
    (hpackets : ∀ packet, entry.2.state = .packetBegan packet → packet.stream = entry.1)
    (h : beginningMsgs t entry = .ok msgs) : ∀ msg ∈ msgs, msg.NotBefore t := by
  obtain ⟨raw, hraw, hmsgs⟩ := beginningMsgs_eq_ok h
  have hns : ∀ cc ∈ entry.1.cls.defaultClockClass, ∀ value ∈ raw, ∀ ns ∈ cc.time value,
      t.toInt ≤ ns := by
    intro cc hcc value hvalue ns hns
    rcases recreatedSnapshot_eq_ok hraw with rfl | ⟨cc', value', hcc', hvalue', rfl⟩
    · cases hvalue
    · cases hvalue
      rw [hcc'] at hcc
      cases hcc
      exact (ClockClass.time_valueFromNsFromOrigin (hclock cc hcc') hvalue' hns).ge
  have hstream : (Msg.streamBeginning entry.1 raw).NotBefore t := by
    intro ns hmem
    obtain ⟨⟨cc, value⟩, hcs, hmem⟩ := Option.bind_eq_some_iff.mp hmem
    obtain ⟨_, hvalue, hcs⟩ := Option.bind_eq_some_iff.mp hcs
    obtain ⟨cc, hcc, hcs⟩ := Option.map_eq_some_iff.mp hcs
    cases hcs
    exact hns cc hcc value hvalue ns hmem
  rcases hmsgs with rfl | ⟨packet, hpacket, hsome, rfl⟩
  · rwa [List.forall_mem_singleton]
  · rw [List.forall_mem_cons, List.forall_mem_singleton]
    refine ⟨hstream, fun ns hmem => ?_⟩
    simp only [Msg.time, Msg.clockSnapshot, hpackets packet hpacket] at hmem
    split at hmem
    · rename_i hflag
      obtain ⟨value, rfl⟩ := Option.isSome_iff_exists.mp (hsome hflag)
      obtain ⟨_, hcs, hmem⟩ := Option.bind_eq_some_iff.mp hmem
      obtain ⟨cc, hcc, rfl⟩ := Option.map_eq_some_iff.mp hcs
      exact hns cc hcc value rfl ns hmem
    · cases hmem

theorem mem_prependStreams {entries : List StreamEntry} {queue queue' : List Msg}
    (h : prependStreams t entries queue = (none, queue')) :
    ∀ msg, msg ∈ queue' ↔ msg ∈ queue ∨
      ∃ entry ∈ entries, ∃ msgs, beginningMsgs t entry = .ok msgs ∧ msg ∈ msgs := by
  induction entries generalizing queue with
  | nil =>
    cases h
    simp
  | cons entry entries ih =>
    simp only [prependStreams] at h
    split at h
    · cases h
    · rename_i msgs hmsgs
      intro msg
      simp only [ih h msg, List.mem_append, List.mem_cons, exists_eq_or_imp, hmsgs,
        Except.ok.injEq, exists_eq_left']
      exact or_assoc.trans or_left_comm

end

/-! ## After a seek -/

section

variable {t : Int64} {upstream : List Msg}

theorem straddler_notBefore {msg msg' : Msg}
    (hclock : ∀ stream, msg.stream = some stream → stream.HasNsClock)
    (h : straddler t msg = some msg') : msg'.NotBefore t := by
  obtain ⟨items, stream, beginCs, endCs, count, cc, newBegin, rfl, hhave, hcc, hnew, rfl⟩ :=
    straddler_discarded h
  intro ns hns
  simp only [Msg.time, Msg.clockSnapshot, hhave, if_true, hcc, Option.map_some,
    Option.bind_some] at hns
  exact (ClockClass.time_valueFromNsFromOrigin (hclock stream rfl cc hcc) hnew hns).ge

end

theorem zero_lt_oneHz : (0 : UInt64) < 1 := by decide

def slowStream : Stream :=
  ⟨0, { eventStream.cls with defaultClockClass := some ⟨1, 0, 0, zero_lt_oneHz⟩ }⟩

end Babeltrace.Graph
