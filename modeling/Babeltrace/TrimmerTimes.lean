import Babeltrace.Trimmer
import Babeltrace.ClockConversions

/-!
# Order of the trimmer's messages

The messages which end the streams get the end of the range rounded down to a cycle of their clock,
so that a stream may end before a message which it already had, or before another stream which has
ended. The messages are in order exactly when neither happens.
-/
namespace Babeltrace.Trimmer
open TraceIr Babeltrace.Graph Excepts

/-! ## Streams which the trimmer ends -/

/-- The messages of a stream since its beginning, unless it has ended -/
def lifeStep (stream : Stream) (life : Option (List Msg)) (msg : Msg) : Option (List Msg) :=
  if msg.stream = some stream then
    match msg with
    | .streamBeginning _ _ => some [msg]
    | .streamEnd _ _ => none
    | _ => life.map (· ++ [msg])
  else life

def life (stream : Stream) (msgs : List Msg) : Option (List Msg) :=
  msgs.foldl (lifeStep stream) none

section

variable (bound : Bound)

def within (msgs : List Msg) : List Msg := msgs.takeWhile fun msg => !pastEnd bound msg.time

def isDiscarded : Msg → Bool
  | .discarded _ _ _ _ _ => true
  | _ => false

/-- The messages within the range, and the first one after it if it's about discarded items, as it
also tells that its stream has a clock snapshot -/
def untilEnd : List Msg → List Msg
  | [] => []
  | msg :: msgs =>
    if pastEnd bound msg.time then if isDiscarded msg then [msg] else []
    else msg :: untilEnd msgs

/-- The stream hasn't ended within the range, and the time of one of its messages is known. -/
def IsCut (upstream : List Msg) (stream : Stream) : Prop :=
  ∃ msgs ∈ life stream (untilEnd bound upstream), ∃ msg ∈ msgs, msg.time.isSome = true

/-- The time of the clock cycle in which the range ends -/
def Bound.cycleTime (cc : ClockClass) : Option ℤ :=
  if cc.exactOffset ≤ bound.nsFromOrigin.toInt then
    cc.time (.ofNat (cc.exactValue bound.nsFromOrigin).toNat)
  else none

def EndsAt (upstream : List Msg) (stream : Stream) (t : ℤ) : Prop :=
  IsCut bound upstream stream ∧ ∃ cc ∈ stream.cls.defaultClockClass, bound.cycleTime cc = some t

/-- The last clock cycles of the streams begin at the same time, which no message is after. -/
def EndsInOrder (upstream : List Msg) : Prop :=
  ∀ stream t, EndsAt bound upstream stream t →
    (∀ ns ∈ (within bound upstream).filterMap Msg.time, ns ≤ t) ∧
      ∀ stream' t', EndsAt bound upstream stream' t' → t' = t

end

variable {stream : Stream} {sstate : StreamState} {outcome : Outcome}

section

variable {order : List Entry → List Entry} {bound : Bound} {upstream passed : List Msg} {t : ℤ}
variable {states states' : States} {msg msg' : Msg} {ends : List Msg} {entry : Entry}
  {entries : List Entry}

theorem life_snoc (stream : Stream) (passed : List Msg) (msg : Msg) :
    life stream (passed ++ [msg]) = lifeStep stream (life stream passed) msg :=
  List.foldl_append

theorem life_snoc_ne (hmsg : msg.stream ≠ some stream) :
    life stream (passed ++ [msg]) = life stream passed := by
  rw [life_snoc]
  exact if_neg hmsg

theorem exists_mem_of_life {msgs : List Msg} (h : msgs ∈ life stream passed) :
    ∃ msg ∈ passed, msg.stream = some stream := by
  induction passed using List.reverseRecOn generalizing msgs with
  | nil => cases h
  | append_singleton passed msg ih =>
    by_cases hmsg : msg.stream = some stream
    · exact ⟨msg, List.mem_append_right _ (List.mem_singleton_self msg), hmsg⟩
    · rw [life_snoc_ne hmsg] at h
      obtain ⟨msg', hmem, hmsg'⟩ := ih h
      exact ⟨msg', List.mem_append_left _ hmem, hmsg'⟩

theorem untilEnd_subset (bound : Bound) (msgs : List Msg) : untilEnd bound msgs ⊆ msgs := by
  induction msgs with
  | nil => exact List.Subset.refl []
  | cons msg msgs ih =>
    rw [untilEnd]
    split
    · split
      · exact List.cons_subset_cons _ (List.nil_subset msgs)
      · exact List.nil_subset _
    · exact List.cons_subset_cons _ ih

theorem IsCut.exists_mem (h : IsCut bound upstream stream) :
    ∃ msg ∈ upstream, msg.stream = some stream := by
  obtain ⟨msgs, hmsgs, -⟩ := h
  obtain ⟨msg, hmem, hmsg⟩ := exists_mem_of_life hmsgs
  exact ⟨msg, untilEnd_subset bound upstream hmem, hmsg⟩

/-! ## States of the streams -/

structure Tracks (passed : List Msg) (states : States) : Prop where
  seen : ∀ stream, (states.lookup stream).map StreamState.seenClockSnapshot =
    (life stream passed).map (·.any fun msg => msg.time.isSome)
  packet : ∀ stream, ∀ sstate ∈ states.lookup stream, ∀ packet ∈ sstate.curPacket,
    packet.stream = stream

theorem tracks_empty : Tracks [] ∅ :=
  ⟨fun stream => (by rw [AList.lookup_empty]; rfl), fun stream sstate hlookup => by
    rw [AList.lookup_empty] at hlookup
    cases hlookup⟩

theorem Tracks.insert (h : Tracks passed states) (hmsg : msg.stream = some stream)
    (hseen : (life stream (passed ++ [msg])).map (·.any fun msg => msg.time.isSome) =
      some sstate.seenClockSnapshot)
    (hpacket : ∀ packet ∈ sstate.curPacket, packet.stream = stream) :
    Tracks (passed ++ [msg]) (states.insert stream sstate) := by
  refine ⟨fun stream' => ?_, fun stream' sstate' hlookup => ?_⟩
  · by_cases heq : stream' = stream
    · rw [heq, AList.lookup_insert, hseen, Option.map_some]
    · have hne : msg.stream ≠ some stream' := fun h => heq (Option.some.inj (h.symm.trans hmsg))
      rw [AList.lookup_insert_ne heq, life_snoc_ne hne, h.seen]
  · by_cases heq : stream' = stream
    · subst heq
      rw [AList.lookup_insert] at hlookup
      cases hlookup
      exact hpacket
    · rw [AList.lookup_insert_ne heq] at hlookup
      exact h.packet stream' sstate' hlookup

theorem Tracks.erase (h : Tracks passed states) {cs : Option UInt64} :
    Tracks (passed ++ [.streamEnd stream cs]) (states.erase stream) := by
  refine ⟨fun stream' => ?_, fun stream' sstate' hlookup => ?_⟩
  · by_cases heq : stream' = stream
    · subst heq
      simp [AList.lookup_erase, life_snoc, lifeStep, Msg.stream]
    · have hne : (Msg.streamEnd stream cs).stream ≠ some stream' :=
        fun h => heq (Option.some.inj h).symm
      rw [AList.lookup_erase_ne heq, life_snoc_ne hne, h.seen]
  · by_cases heq : stream' = stream
    · subst heq
      rw [AList.lookup_erase] at hlookup
      cases hlookup
    · rw [AList.lookup_erase_ne heq] at hlookup
      exact h.packet stream' sstate' hlookup

/-- A message with a time, between the beginning and the end of its stream -/
theorem Tracks.insert_seen (h : Tracks passed states) (hlookup : states.lookup stream = some sstate)
    (hmsg : msg.stream = some stream)
    (htime : msg.time ≠ none) {curPacket : Option Packet}
    (hpacket : ∀ packet ∈ curPacket, packet.stream = stream)
    (hstep : ∀ life, lifeStep stream life msg = life.map (· ++ [msg])) :
    Tracks (passed ++ [msg]) (states.insert stream ⟨true, curPacket⟩) := by
  refine h.insert hmsg ?_ hpacket
  have hseen := h.seen stream
  rw [hlookup] at hseen
  obtain ⟨msgs, hlife, -⟩ := Option.map_eq_some_iff.mp hseen.symm
  simp [life_snoc, hstep, hlife, Option.isSome_iff_ne_none.mpr htime]

theorem Tracks.isCut_iff (h : Tracks (untilEnd bound upstream) states) (stream : Stream) :
    IsCut bound upstream stream ↔
      ∃ sstate, states.lookup stream = some sstate ∧ sstate.seenClockSnapshot = true := by
  have hseen := h.seen stream
  constructor
  · rintro ⟨msgs, hlife, msg, hmsg, htime⟩
    rw [hlife] at hseen
    obtain ⟨sstate, hlookup, heq⟩ := Option.map_eq_some_iff.mp hseen
    exact ⟨sstate, hlookup, heq.trans (List.any_eq_true.mpr ⟨msg, hmsg, htime⟩)⟩
  · rintro ⟨sstate, hlookup, hsstate⟩
    rw [hlookup, Option.map_some, hsstate] at hseen
    obtain ⟨msgs, hlife, heq⟩ := Option.map_eq_some_iff.mp hseen.symm
    exact ⟨msgs, hlife, List.any_eq_true.mp heq⟩

/-! ## Upstream messages -/

def Outcome.Handles (bound : Bound) (passed : List Msg) (msg : Msg) : Outcome → Prop
  | .push msg' states => msg'.time = msg.time ∧ pastEnd bound msg.time = false ∧
    Tracks (passed ++ [msg]) states
  | .reachedEnd states => pastEnd bound msg.time = true ∧
    Tracks (passed ++ untilEnd bound [msg]) states

section

variable (htracks : Tracks passed states)

include htracks

theorem handles_reachedEnd (hmsg : isDiscarded msg = false)
    (hpast : pastEnd bound msg.time = true) :
    (Outcome.reachedEnd states).Handles bound passed msg := by
  refine ⟨hpast, ?_⟩
  rwa [untilEnd, if_pos hpast, hmsg, if_neg Bool.false_ne_true, List.append_nil]

theorem handleDiscarded_handles (hsstate : states.lookup stream = some sstate)
    {items : DiscardedItems} {beginCs endCs : UInt64} {count : Option ℕ}
    (h : handleDiscarded bound states sstate items stream beginCs endCs count
      (Msg.discarded items stream beginCs endCs count).time = .ok outcome) :
    outcome.Handles bound passed (.discarded items stream beginCs endCs count) := by
  unfold handleDiscarded at h
  split at h
  · rename_i ns cc hns _
    have htime : (Msg.discarded items stream beginCs endCs count).time ≠ none := by
      rw [hns]
      exact Option.some_ne_none ns
    have htracks' := htracks.insert_seen hsstate rfl htime (htracks.packet stream sstate hsstate)
      fun _ => if_pos rfl
    split at h
    · cases h
    · split at h
      · rename_i hpast
        cases h
        refine ⟨hpast, ?_⟩
        rwa [untilEnd, if_pos hpast, isDiscarded, if_pos rfl]
      · rename_i hpast
        rw [Bool.not_eq_true] at hpast
        split at h
        · split at h
          · cases h
          · split at h
            · cases h
              exact ⟨rfl, hpast, htracks'⟩
            · cases h
        · cases h
          exact ⟨rfl, hpast, htracks'⟩
  · cases h

theorem handles_of_range (hmsg : isDiscarded msg = false)
    (htracks' : Tracks (passed ++ [msg]) states')
    (h : (if pastEnd bound msg.time then .ok (.reachedEnd states) else .ok (.push msg states')) =
      Except.ok (ε := HandleErr) outcome) : outcome.Handles bound passed msg := by
  split at h
  · rename_i hpast
    cases h
    exact handles_reachedEnd htracks hmsg hpast
  · rename_i hpast
    cases h
    exact ⟨rfl, Bool.eq_false_iff.mpr hpast, htracks'⟩

theorem handleMessageWithState_handles (hstream : msg.stream = some stream)
    (hsstate : states.lookup stream = some sstate)
    (h : handleMessageWithState bound states sstate msg.time msg = .ok outcome) :
    outcome.Handles bound passed msg := by
  unfold handleMessageWithState at h
  split at h
  · cases hstream
    split at h
    · cases h
    · rename_i htime
      refine handles_of_range htracks rfl ?_ h
      exact htracks.insert_seen hsstate rfl htime (htracks.packet _ sstate hsstate)
        fun _ => if_pos rfl
  · cases hstream
    split at h
    · cases h
    · rename_i htime
      refine handles_of_range htracks rfl (htracks.insert_seen hsstate rfl
        (fun hnone => htime (.inl hnone)) ?_ fun _ => if_pos rfl) h
      rintro packet' ⟨⟩
      rfl
  · cases hstream
    split at h
    · cases h
    · rename_i htime
      refine handles_of_range htracks rfl ?_ h
      exact htracks.insert_seen hsstate rfl (fun hnone => htime (.inl hnone))
        (fun _ hnone => nomatch hnone) fun _ => if_pos rfl
  · cases hstream
    exact handleDiscarded_handles htracks hsstate h
  · exact handles_of_range htracks rfl htracks.erase h
  · cases h
  · cases h

theorem handleMessageWithStream_handles (hstream : msg.stream = some stream)
    (h : handleMessageWithStream bound states stream msg.time msg = .ok outcome) :
    outcome.Handles bound passed msg := by
  unfold handleMessageWithStream at h
  split at h
  · cases hstream
    split at h
    · rename_i hpast
      cases h
      exact handles_reachedEnd htracks rfl hpast
    · rename_i hpast
      unfold createStreamStateEntry at h
      split at h
      · cases h
      · split at h
        · cases h
          refine ⟨rfl, Bool.eq_false_iff.mpr hpast, htracks.insert rfl ?_ fun _ hnone => nomatch hnone⟩
          simp [life_snoc, lifeStep, Msg.stream]
        · cases h
  · split at h
    · cases h
    · rename_i sstate hsstate
      exact handleMessageWithState_handles htracks hstream hsstate h

end

theorem handleMessage_handles (hfinite : bound.isInfinite = false) (htracks : Tracks passed states)
    (h : handleMessage bound states msg = .ok outcome) : outcome.Handles bound passed msg := by
  unfold handleMessage at h
  split at h
  · cases h
  · rename_i ns hns
    obtain rfl := getMsgNsFromOrigin_time hns
    split at h
    · rename_i stream hstream
      exact handleMessageWithStream_handles htracks hstream h
    · rename_i hstream
      have hpast : pastEnd bound msg.time =
          msg.time.any fun ns => decide (bound.nsFromOrigin.toInt < ns) := by
        simp [pastEnd, hfinite]
      have hlife (stream : Stream) : life stream (passed ++ [msg]) = life stream passed :=
        life_snoc_ne (by rw [hstream]; simp)
      split at h
      · rename_i hpast'
        cases h
        refine handles_reachedEnd htracks ?_ (hpast.trans hpast')
        cases msg <;> first | rfl | cases hstream
      · rename_i hpast'
        cases h
        refine ⟨rfl, hpast.trans (Bool.eq_false_iff.mpr hpast'), fun stream => ?_, htracks.packet⟩
        rw [hlife, htracks.seen]

/-! ## Whole output -/

/-- The messages within the range, and those which end the streams, whatever their order -/
theorem trim_eq (hfinite : bound.isInfinite = false) (htracks : Tracks passed states)
    {rest out : List Msg} (h : trim order bound states rest = .ok out) :
    ∃ pushed states', (∀ order, trim order bound states rest =
        (endIteratorStreams order bound states').map (pushed ++ ·)) ∧
      pushed.filterMap Msg.time = (within bound rest).filterMap Msg.time ∧
      Tracks (passed ++ untilEnd bound rest) states' := by
  induction rest generalizing passed states out with
  | nil =>
    refine ⟨[], states, fun order => (map_nil_append _).symm, rfl, ?_⟩
    rwa [untilEnd, List.append_nil]
  | cons msg rest ih =>
    cases hmsg : handleMessage bound states msg with
    | error err =>
      simp only [trim, hmsg] at h
      cases h
    | ok outcome =>
      have hhandles := handleMessage_handles hfinite htracks hmsg
      cases outcome with
      | reachedEnd states' =>
        obtain ⟨hpast, htracks'⟩ := hhandles
        refine ⟨[], states', fun order => ?_, ?_, ?_⟩
        · simp only [trim, hmsg, map_nil_append]
        · rw [within, List.takeWhile_cons_of_neg (by simp [hpast])]
        · simpa only [untilEnd, if_pos hpast] using htracks'
      | push msg' states' =>
        obtain ⟨htime, hpast, htracks'⟩ := hhandles
        simp only [trim, hmsg] at h
        obtain ⟨out', htrim, -⟩ := map_eq_ok.mp h
        obtain ⟨pushed, states'', heq, htimes, htracks''⟩ := ih htracks' htrim
        refine ⟨msg' :: pushed, states'', fun order => ?_, ?_, ?_⟩
        · simp only [trim, hmsg, heq]
          exact map_append_append _ [msg'] pushed
        · rw [within, List.takeWhile_cons_of_pos (by simp [hpast]), List.filterMap_cons,
            List.filterMap_cons, htime, htimes]
          rfl
        · rw [List.append_assoc] at htracks''
          rwa [untilEnd, hpast, if_neg Bool.false_ne_true]

/-! ## Messages which end the streams -/

theorem cycleTime_eq {cc : ClockClass} {value : UInt64} (hfits : cc.Fits bound.nsFromOrigin)
    (h : cc.valueFromNsFromOrigin bound.nsFromOrigin = some value) :
    bound.cycleTime cc = cc.time value := by
  obtain ⟨offset, hoffset, hle, hvalue⟩ := ClockClass.toNat_of_valueFromNsFromOrigin h
  rw [hfits.toInt_offset hoffset] at hvalue
  rw [Int64.le_iff_toInt_le, hfits.toInt_offset hoffset] at hle
  rw [Bound.cycleTime, if_pos hle, ClockClass.exactValue, ← hvalue, Int.toNat_natCast,
    UInt64.ofNat_toNat]

def EntryEndsAt (bound : Bound) (entry : Entry) (t : ℤ) : Prop :=
  entry.2.seenClockSnapshot = true ∧
    ∃ cc ∈ entry.1.cls.defaultClockClass, bound.cycleTime cc = some t

structure EntryOk (bound : Bound) (entry : Entry) : Prop where
  packet : ∀ packet ∈ entry.2.curPacket, packet.stream = entry.1
  fits : entry.2.seenClockSnapshot = true → ∀ cc ∈ entry.1.cls.defaultClockClass,
    cc.Fits bound.nsFromOrigin

theorem endStream_time_iff (hentry : EntryOk bound entry) (h : endStream bound entry = .ok ends) :
    t ∈ ends.filterMap Msg.time ↔ EntryEndsAt bound entry t := by
  rw [List.mem_filterMap]
  unfold endStream endSnapshot at h
  by_cases hseen : entry.2.seenClockSnapshot = true
  · simp only [if_pos hseen] at h
    cases hcc : entry.1.cls.defaultClockClass with
    | none =>
      rw [hcc] at h
      cases h
    | some cc =>
      rw [hcc] at h
      cases hvalue : cc.valueFromNsFromOrigin bound.nsFromOrigin with
      | none =>
        simp only [hvalue] at h
        cases h
      | some value =>
        have hends : EntryEndsAt bound entry t ↔ cc.time value = some t := by
          simp [EntryEndsAt, hseen, hcc, cycleTime_eq (hentry.fits hseen cc hcc) hvalue]
        have hstreamEnd : (Msg.streamEnd entry.1 (some value)).time = cc.time value := by
          simp [Msg.time, Msg.clockSnapshot, hcc]
        simp only [hvalue] at h
        rw [hends]
        cases hcur : entry.2.curPacket with
        | none =>
          simp only [hcur] at h
          cases h
          simp [hstreamEnd]
        | some packet =>
          simp only [hcur] at h
          cases h
          constructor
          · rintro ⟨msg, hmsg, htime⟩
            rcases List.mem_pair.mp hmsg with rfl | rfl
            · rw [Msg.time, Msg.clockSnapshot, hentry.packet packet hcur, hcc] at htime
              split at htime
              · exact htime
              · cases htime
            · exact hstreamEnd ▸ htime
          · exact fun htime => ⟨_, List.mem_cons_of_mem _ (List.mem_singleton_self _),
              hstreamEnd.trans htime⟩
  · have hnot : ¬EntryEndsAt bound entry t := fun hends => hseen hends.1
    simp only [if_neg hseen] at h
    split at h
    · cases h
    · cases h
      simp [hnot, Msg.time, Msg.clockSnapshot]

theorem endStreams_cons (h : endStreams bound (entry :: entries) = .ok ends) :
    ∃ msgs ends', endStream bound entry = .ok msgs ∧ endStreams bound entries = .ok ends' ∧
      ends = msgs ++ ends' := by
  rw [endStreams] at h
  split at h
  · cases h
  · rename_i msgs hentry
    obtain ⟨ends', hrest, heq⟩ := map_eq_ok.mp h
    exact ⟨msgs, ends', hentry, hrest, heq.symm⟩

theorem endStreams_time_iff (hentries : ∀ entry ∈ entries, EntryOk bound entry)
    (h : endStreams bound entries = .ok ends) :
    t ∈ ends.filterMap Msg.time ↔ ∃ entry ∈ entries, EntryEndsAt bound entry t := by
  induction entries generalizing ends with
  | nil =>
    cases h
    simp
  | cons entry entries ih =>
    obtain ⟨msgs, ends', hentry, hrest, rfl⟩ := endStreams_cons h
    rw [List.forall_mem_cons] at hentries
    rw [List.filterMap_append, List.mem_append, endStream_time_iff hentries.1 hentry,
      ih hentries.2 hrest]
    simp

theorem exists_endStreams_iff :
    (∃ ends, endStreams bound entries = .ok ends) ↔
      ∀ entry ∈ entries, ∃ msgs, endStream bound entry = .ok msgs := by
  induction entries with
  | nil => simp [endStreams]
  | cons entry entries ih =>
    rw [List.forall_mem_cons, ← ih]
    constructor
    · rintro ⟨ends, h⟩
      obtain ⟨msgs, ends', hentry, hrest, -⟩ := endStreams_cons h
      exact ⟨⟨msgs, hentry⟩, ends', hrest⟩
    · rintro ⟨⟨msgs, hentry⟩, ends', hrest⟩
      exact ⟨msgs ++ ends', by rw [endStreams, hentry, hrest]; rfl⟩

/-! ## Runs to the end -/

variable {it it' : Iter} {delivered msgs out : List Msg} {status : Status} {capacity : ℕ}

theorem Run.finish_ending (hrun : Run order bound upstream it delivered status)
    (hstatus : status = .ok ∨ status = .again) (reply : Reply)
    (hreply : reply ≠ .error ∧ reply ≠ .memoryError) (it₁ : Iter) (hmode : it₁.mode = .ending)
    (hnext : Trimmer.next order bound it₁.outputMessages.length it [reply] =
      some (stateEnding it₁.outputMessages.length it₁)) :
    ∃ it', Run order bound upstream it' (delivered ++ it₁.outputMessages) .ended := by
  have hreplies : ∀ reply' ∈ [reply], reply' ≠ .error ∧ reply' ≠ .memoryError := by
    simpa using hreply
  by_cases hempty : it₁.outputMessages = []
  · rw [stateEnding, if_pos hempty] at hnext
    rw [hempty]
    exact ⟨_, .next hrun hstatus hreplies hnext⟩
  · rw [stateEnding, if_neg hempty, fillMessageArray, List.take_length, List.drop_length] at hnext
    have hlast : Trimmer.next order bound 0 { it₁ with outputMessages := [] } [] =
        some (.ended, [], { it₁ with mode := .ended, outputMessages := [] }) := by
      simp only [Trimmer.next, hmode, stateEnding, if_true]
    rw [← List.append_nil (delivered ++ it₁.outputMessages)]
    exact ⟨_, .next (.next hrun hstatus hreplies hnext) (.inl rfl) (by simp) hlast⟩

/-- The messages may come one by one. -/
theorem Run.finish (hrun : Run order bound upstream it delivered status)
    (hstatus : status = .ok ∨ status = .again) (hmode : it.mode = .trim)
    (hempty : it.outputMessages = []) (htrim : trim order bound it.streamStates it.rest = .ok out) :
    ∃ it', Run order bound upstream it' (delivered ++ out) .ended := by
  induction hrest : it.rest generalizing it delivered out status with
  | nil =>
    rw [hrest, trim] at htrim
    refine hrun.finish_ending hstatus .ended ⟨by simp, by simp⟩
      { it with mode := .ending, outputMessages := out, streamStates := ∅ } rfl ?_
    simp only [Trimmer.next, hmode, stateTrim, hempty, if_true, userNext, hrest, htrim]
  | cons msg rest ih =>
    have hone : userNext it.rest (.ok 1) = some (.ok, [msg], rest) := by
      simp [userNext, hrest, msgBatchSize]
    rw [hrest, trim] at htrim
    split at htrim
    · cases htrim
    · rename_i states hmsg
      refine hrun.finish_ending hstatus (.ok 1) ⟨by simp, by simp⟩ ⟨.ending, out, ∅, rest⟩ rfl ?_
      simp only [Trimmer.next, hmode, stateTrim, hempty, if_true, hone, handleBatch, hmsg, htrim,
        Except.map, List.nil_append]
    · rename_i msg' states hmsg
      obtain ⟨out', htrim', rfl⟩ := map_eq_ok.mp htrim
      have hnext : Trimmer.next order bound 1 it [.ok 1] =
          some (.ok, [msg'], ⟨.trim, [], states, rest⟩) := by
        simp [Trimmer.next, hmode, stateTrim, hempty, hone, handleBatch, hmsg, fillMessageArray]
      obtain ⟨it', hrun'⟩ := ih (.next hrun hstatus (by simp) hnext) (.inl rfl) rfl rfl htrim' rfl
      exact ⟨it', by simpa using hrun'⟩

/-! ## Order -/

def PermutesEntries (order : List Entry → List Entry) : Prop := ∀ entries, (order entries).Perm entries

/-- The order of the hash table, but for one entry which comes first -/
def frontOrder (entry : Entry) (entries : List Entry) : List Entry :=
  if entry ∈ entries then entry :: entries.erase entry else entries

theorem permutesEntries_frontOrder (entry : Entry) : PermutesEntries (frontOrder entry) := by
  intro entries
  unfold frontOrder
  split
  · rename_i hmem
    exact (List.perm_cons_erase hmem).symm
  · exact List.Perm.refl entries

section

variable (hfinite : bound.isInfinite = false)
  (hfits : ∀ stream, IsCut bound upstream stream → ∀ cc ∈ stream.cls.defaultClockClass,
    cc.Fits bound.nsFromOrigin)
  (htracks : Tracks (untilEnd bound upstream) states)

include hfits htracks

theorem Tracks.entryOk (hentry : entry ∈ states.entries) : EntryOk bound entry := by
  have hlookup := AList.mem_lookup_iff.mpr hentry
  exact ⟨htracks.packet entry.1 entry.2 hlookup,
    fun hseen => hfits entry.1 ((htracks.isCut_iff entry.1).mpr ⟨entry.2, hlookup, hseen⟩)⟩

omit hfits in
theorem Tracks.endsAt_iff :
    EndsAt bound upstream stream t ↔ ∃ sstate, ⟨stream, sstate⟩ ∈ states.entries ∧
      EntryEndsAt bound ⟨stream, sstate⟩ t := by
  constructor
  · rintro ⟨hcut, hcc⟩
    obtain ⟨sstate, hlookup, hseen⟩ := (htracks.isCut_iff stream).mp hcut
    exact ⟨sstate, AList.mem_lookup_iff.mp hlookup, hseen, hcc⟩
  · rintro ⟨sstate, hentry, hseen, hcc⟩
    exact ⟨(htracks.isCut_iff stream).mpr ⟨sstate, AList.mem_lookup_iff.mpr hentry, hseen⟩, hcc⟩

include hfinite

theorem Tracks.ends_time_iff (horder : PermutesEntries order)
    (hends : endIteratorStreams order bound states = .ok ends) :
    t ∈ ends.filterMap Msg.time ↔ ∃ stream, EndsAt bound upstream stream t := by
  rw [endIteratorStreams, hfinite, if_neg Bool.false_ne_true] at hends
  rw [endStreams_time_iff (fun entry hentry => htracks.entryOk hfits ((horder _).mem_iff.mp hentry))
    hends]
  simp only [htracks.endsAt_iff]
  constructor
  · rintro ⟨⟨stream, sstate⟩, hentry, hat⟩
    exact ⟨stream, sstate, (horder _).mem_iff.mp hentry, hat⟩
  · rintro ⟨stream, sstate, hentry, hat⟩
    exact ⟨_, (horder _).mem_iff.mpr hentry, hat⟩

/-- The hash table may have any stream first. -/
theorem Tracks.le_of_inOrder
    (hinOrder : ∀ order ends, PermutesEntries order →
      endIteratorStreams order bound states = .ok ends → InOrder ends)
    (hok : ∀ entry ∈ states.entries, ∃ msgs, endStream bound entry = .ok msgs)
    {stream' : Stream} {t' : ℤ} (hat : EndsAt bound upstream stream t)
    (hat' : EndsAt bound upstream stream' t') : t ≤ t' := by
  obtain ⟨sstate, hentry, hends⟩ := htracks.endsAt_iff.mp hat
  obtain ⟨sstate', hentry', hends'⟩ := htracks.endsAt_iff.mp hat'
  by_cases heq : (⟨stream', sstate'⟩ : Entry) = ⟨stream, sstate⟩
  · cases heq
    obtain ⟨-, cc, hcc, htime⟩ := hends
    obtain ⟨-, cc', hcc', htime'⟩ := hends'
    cases Option.some.inj (hcc.symm.trans hcc')
    exact (Option.some.inj (htime.symm.trans htime')).le
  · have hentryOk {entry : Entry} (hmem : entry ∈ states.entries.erase ⟨stream, sstate⟩) :=
      htracks.entryOk hfits (List.mem_of_mem_erase hmem)
    have horder := permutesEntries_frontOrder ⟨stream, sstate⟩
    obtain ⟨ends, h⟩ := exists_endStreams_iff.mpr fun entry hmem =>
      hok entry ((horder states.entries).mem_iff.mp hmem)
    have hall : endIteratorStreams (frontOrder ⟨stream, sstate⟩) bound states = .ok ends := by
      rw [endIteratorStreams, hfinite, if_neg Bool.false_ne_true, h]
    rw [frontOrder, if_pos hentry] at h
    obtain ⟨msgs, rest, hfirst, hrest, rfl⟩ := endStreams_cons h
    have hpairwise := hinOrder _ _ horder hall
    rw [InOrder, List.filterMap_append, List.pairwise_append] at hpairwise
    refine hpairwise.2.2 t ((endStream_time_iff (htracks.entryOk hfits hentry) hfirst).mpr hends) t' ?_
    exact (endStreams_time_iff (fun _ hmem => hentryOk hmem) hrest).mpr
      ⟨_, (List.mem_erase_of_ne heq).mpr hentry', hends'⟩

theorem EndsInOrder.inOrder (h : EndsInOrder bound upstream) (hupstream : InOrder upstream)
    {pushed : List Msg}
    (hpushed : pushed.filterMap Msg.time = (within bound upstream).filterMap Msg.time)
    (horder : PermutesEntries order) (hends : endIteratorStreams order bound states = .ok ends) :
    InOrder (pushed ++ ends) := by
  have hends_iff {t : ℤ} : t ∈ ends.filterMap Msg.time ↔ ∃ stream, EndsAt bound upstream stream t :=
    htracks.ends_time_iff hfinite hfits horder hends
  rw [InOrder, List.filterMap_append, hpushed, List.pairwise_append]
  refine ⟨?_, ?_, fun ns hns t ht => ?_⟩
  · exact List.Pairwise.sublist ((List.takeWhile_sublist _).filterMap _) hupstream
  · refine List.pairwise_of_forall_mem_list fun t ht t' ht' => ?_
    obtain ⟨stream, hat⟩ := hends_iff.mp ht
    obtain ⟨stream', hat'⟩ := hends_iff.mp ht'
    exact ((h stream t hat).2 stream' t' hat').ge
  · obtain ⟨stream, hat⟩ := hends_iff.mp ht
    exact (h stream t hat).1 ns hns

end

/-- A trimmer which doesn't fail returns messages in order, whatever the order in which it ends
the streams, exactly when the clock cycles in which the range ends begin at one time, which no
message within the range is after. -/
theorem run_inOrder_iff (hfinite : bound.isInfinite = false) (hupstream : InOrder upstream)
    (hfits : ∀ stream, IsCut bound upstream stream → ∀ cc ∈ stream.cls.defaultClockClass,
      cc.Fits bound.nsFromOrigin)
    (horder : PermutesEntries order) (htrim : trim order bound ∅ upstream = .ok out) :
    (∀ order, PermutesEntries order → ∀ it delivered status,
      Run order bound upstream it delivered status → InOrder delivered) ↔
    EndsInOrder bound upstream := by
  obtain ⟨pushed, states, heq, hpushed, htracks⟩ := trim_eq hfinite tracks_empty htrim
  rw [List.nil_append] at htracks
  have hok : ∀ entry ∈ states.entries, ∃ msgs, endStream bound entry = .ok msgs := by
    rw [heq, endIteratorStreams, hfinite, if_neg Bool.false_ne_true] at htrim
    obtain ⟨ends, hends, -⟩ := map_eq_ok.mp htrim
    exact fun entry hentry => exists_endStreams_iff.mp ⟨ends, hends⟩ entry
      ((horder _).mem_iff.mpr hentry)
  have hends {order : List Entry → List Entry} (horder : PermutesEntries order) :
      ∃ ends, endIteratorStreams order bound states = .ok ends := by
    obtain ⟨ends, h⟩ := exists_endStreams_iff.mpr fun entry hentry =>
      hok entry ((horder _).mem_iff.mp hentry)
    exact ⟨ends, by rw [endIteratorStreams, hfinite, if_neg Bool.false_ne_true, h]⟩
  constructor
  · intro hruns
    have hinOrder {order : List Entry → List Entry} {ends : List Msg}
        (horder : PermutesEntries order)
        (h : endIteratorStreams order bound states = .ok ends) : InOrder (pushed ++ ends) := by
      have htrim : trim order bound ∅ upstream = .ok (pushed ++ ends) := by
        rw [heq, h]
        rfl
      obtain ⟨it', hrun'⟩ := Run.finish .new (.inl rfl) rfl rfl htrim
      exact hruns order horder it' _ _ hrun'
    intro stream t hat
    refine ⟨fun ns hns => ?_, fun stream' t' hat' => ?_⟩
    · have hid : PermutesEntries id := fun entries => List.Perm.refl entries
      obtain ⟨ends, h⟩ := hends hid
      have hpairwise := hinOrder hid h
      rw [InOrder, List.filterMap_append, List.pairwise_append, hpushed] at hpairwise
      exact hpairwise.2.2 ns hns t
        ((htracks.ends_time_iff hfinite hfits hid h).mpr ⟨stream, hat⟩)
    · have hle {stream stream' : Stream} {t t' : ℤ} (hat : EndsAt bound upstream stream t)
          (hat' : EndsAt bound upstream stream' t') : t ≤ t' := by
        refine htracks.le_of_inOrder hfinite hfits (fun order ends horder h => ?_) hok hat hat'
        have hpairwise := hinOrder horder h
        rw [InOrder, List.filterMap_append, List.pairwise_append] at hpairwise
        exact hpairwise.2.1
      exact le_antisymm (hle hat' hat) (hle hat hat')
  · intro hends' order horder it delivered status hrun
    obtain ⟨ends, h⟩ := hends horder
    have hinOrder := hends'.inOrder hfinite hfits htracks hupstream hpushed horder h
    have htrim' : trim order bound ∅ upstream = .ok (pushed ++ ends) := by
      rw [heq, h]
      rfl
    obtain ⟨out', -, hsplit⟩ := map_eq_ok.mp (hrun.trim_eq.symm.trans htrim')
    rw [← hsplit] at hinOrder
    exact List.Pairwise.sublist ((List.sublist_append_left _ _).filterMap _) hinOrder

/-! ## A clock of 3 Hz -/

def thirdsClockClass : ClockClass := ⟨3, 0, 0, by decide⟩

def thirdsStream : Stream := ⟨0, .withoutSnapshots (some thirdsClockClass) false⟩

def twoEvents (first second : UInt64) : List Msg :=
  [.streamBeginning thirdsStream none, .event thirdsStream none 0 first,
    .event thirdsStream none 1 second, .streamEnd thirdsStream none]

theorem eq_of_isCut {bound : Bound} {first second : UInt64} {stream : Stream}
    (hcut : IsCut bound (twoEvents first second) stream) : stream = thirdsStream := by
  obtain ⟨msg, hmem, hmsg⟩ := hcut.exists_mem
  simp only [twoEvents, List.mem_cons, List.not_mem_nil, or_false] at hmem
  rcases hmem with rfl | rfl | rfl | rfl <;> exact (Option.some.inj hmsg).symm

theorem fits_thirdsClockClass (e : Int64) : thirdsClockClass.Fits e := by
  have hoffset : thirdsClockClass.exactOffset = 0 := by decide
  refine ⟨by decide, fun _ => ⟨by decide, fun _ => ⟨by decide, ?_⟩⟩⟩
  rw [hoffset, sub_zero]
  exact e.toInt_lt

theorem run_inOrder_iff_second :
    (∃ it, Run id ⟨1000000000, false⟩ (twoEvents 3 4) it [.streamBeginning thirdsStream none,
      .event thirdsStream none 0 3, .streamEnd thirdsStream (some 3)] .ended) ∧
    ∀ order, PermutesEntries order → ∀ it delivered status,
      Run order ⟨1000000000, false⟩ (twoEvents 3 4) it delivered status → InOrder delivered := by
  have htrim : trim id ⟨1000000000, false⟩ ∅ (twoEvents 3 4) =
      .ok [.streamBeginning thirdsStream none, .event thirdsStream none 0 3,
        .streamEnd thirdsStream (some 3)] := rfl
  obtain ⟨it, hrun⟩ := Run.finish .new (.inl rfl) rfl rfl htrim
  have hat {stream : Stream} {t : ℤ} (h : EndsAt ⟨1000000000, false⟩ (twoEvents 3 4) stream t) :
      t = 1000000000 := by
    obtain ⟨hcut, cc, hcc, htime⟩ := h
    rw [eq_of_isCut hcut] at hcc
    cases hcc
    have hcycle : Bound.cycleTime ⟨1000000000, false⟩ thirdsClockClass = some 1000000000 := by
      decide +kernel
    exact Option.some.inj (htime.symm.trans hcycle)
  refine ⟨⟨it, hrun⟩, (run_inOrder_iff rfl (by unfold InOrder; decide +kernel) ?_
    (fun entries => List.Perm.refl entries) htrim).mpr fun stream t h => ⟨?_, fun stream' t' h' => ?_⟩⟩
  · intro stream hcut cc hcc
    rw [eq_of_isCut hcut] at hcc
    cases hcc
    exact fits_thirdsClockClass _
  · rw [hat h]
    decide +kernel
  · rw [hat h, hat h']

/-- The first event is at the end of the range, of which the clock value is 0. -/
theorem stream_ends_before_event :
    ∃ (bound : Bound) (upstream delivered : List Msg) (it : Iter),
      bound.isInfinite = false ∧ InOrder upstream ∧ Run id bound upstream it delivered .ended ∧
      ¬InOrder delivered := by
  have htrim : trim id ⟨333333333, false⟩ ∅ (twoEvents 1 2) =
      .ok [.streamBeginning thirdsStream none, .event thirdsStream none 0 1,
        .streamEnd thirdsStream (some 0)] := rfl
  obtain ⟨it, hrun⟩ := Run.finish .new (.inl rfl) rfl rfl htrim
  exact ⟨_, _, _, it, rfl, by unfold InOrder; decide +kernel, hrun,
    by unfold InOrder; decide +kernel⟩

end

end Babeltrace.Trimmer
