import Mathlib.Logic.Function.Basic
import Mathlib.Data.List.Basic
import Mathlib.Tactic.Common

/-!
# The metadata streams of a live source

Each live trace has a state which tells if one needs to ask for more metadata.
`lttng_live_metadata_update()` closes it when the relay doesn't know the stream anymore. A run is
any sequence of the calls of the message iterator, for any replies.
-/

namespace Babeltrace.LiveMetadata

/-- `enum lttng_live_metadata_stream_state` -/
inductive StreamState
  | needed
  | notNeeded
  | closed
deriving DecidableEq, Repr

structure Trace where
  metadata : Option ℕ
  metadataStreamState : StreamState
  hasTrace : Bool
deriving DecidableEq, Repr

/-- `lttng_live_create_trace()` -/
def Trace.new : Trace := ⟨none, .needed, false⟩

/-- `trace` with another metadata stream state. -/
def Trace.setState (trace : Trace) (state : StreamState) : Trace :=
  { trace with metadataStreamState := state }

/-- What comes back for `LTTNG_VIEWER_GET_METADATA` -/
inductive Reply
  | ok (bytes : List UInt8)
  | noNew
  | err
  | unknown
  | failed
  | interrupted
deriving DecidableEq, Repr

def Reply.isOk : Reply → Bool
  | .ok _ => true
  | _ => false

/-- How the loop of `lttng_live_metadata_update()` ends -/
inductive Received
  | pending
  | done (metadataBuf : List UInt8) (closed : Bool)
  | error
  | abort
deriving DecidableEq, Repr

/-- The loop of `lttng_live_metadata_update()`: one command for each reply -/
def receive (metadataBuf : List UInt8) : List Reply → Received
  | [] => .pending
  -- A packet of size 0 is to try again.
  | .ok bytes :: replies => receive (metadataBuf ++ bytes) replies
  | .noNew :: _ => .done metadataBuf false
  | .err :: _ => .done metadataBuf true
  | .unknown :: _ => .error
  | .failed :: _ => .error
  -- `LTTNG_LIVE_GET_ONE_METADATA_STATUS_INTERRUPTED` is the default case of the switch.
  | .interrupted :: _ => .abort

/-- `parseSection()` throws, there's no trace IR class yet, some stream class has no default clock
class, or all is well. -/
inductive Parsed
  | throws
  | noLibCls
  | noDefaultClockCls
  | ok
deriving DecidableEq, Repr

/-- `crash` is the use of a null pointer. -/
inductive Outcome
  | ok
  | again
  | error
  | pending
  | abort
  | crash
deriving DecidableEq, Repr

/-- The end of `lttng_live_metadata_update()`, with some metadata. -/
def appendContent (trace : Trace) (parsed : Parsed) : Outcome × Trace :=
  match parsed, trace.hasTrace with
  | .throws, _ => (.error, trace)
  | _, true => (.ok, trace.setState .notNeeded)
  | .noLibCls, false => (.ok, trace.setState .notNeeded)
  | .noDefaultClockCls, false => (.error, { trace with hasTrace := true })
  | .ok, false => (.ok, { trace with hasTrace := true, metadataStreamState := .notNeeded })

/-- `lttng_live_metadata_update()` after its loop. -/
def afterLoop (trace : Trace) (metadataBuf : List UInt8) (parsed : Parsed) : Outcome × Trace :=
  if metadataBuf = [] then
    if trace.hasTrace then (.ok, trace.setState .notNeeded) else (.again, trace)
  else appendContent trace parsed

/-- `lttng_live_metadata_update()` -/
def metadataUpdate (trace : Trace) (replies : List Reply) (parsed : Parsed) : Outcome × Trace :=
  match trace.metadata with
  -- The first log statement uses the logger of the metadata.
  | none => (.crash, trace)
  | some _ =>
    if trace.metadataStreamState ≠ .needed then (.ok, trace)
    else
      match receive [] replies with
      | .pending => (.pending, trace)
      | .error => (.error, trace)
      | .abort => (.abort, trace)
      | .done metadataBuf closed =>
        afterLoop (if closed then trace.setState .closed else trace) metadataBuf parsed

/-! ## Runs -/

inductive Obs
  | sent (stream : ℕ)
  | metadataErr (stream : ℕ)
  | abort
deriving DecidableEq, Repr

/-- What one sees of the loop of `lttng_live_metadata_update()`. -/
def observe (stream : ℕ) : List Reply → List Obs
  | .ok _ :: replies => .sent stream :: observe stream replies
  | .err :: _ => [.sent stream, .metadataErr stream]
  | .interrupted :: _ => [.sent stream, .abort]
  | _ => [.sent stream]

/-- What one sees of `lttng_live_metadata_update()`. -/
def Trace.observe (trace : Trace) (replies : List Reply) : List Obs :=
  match trace.metadata with
  | none => []
  | some stream =>
    if trace.metadataStreamState ≠ .needed then [] else LiveMetadata.observe stream replies

abbrev Traces := ℕ → Option Trace

inductive Event
  /-- `lttng_live_session_borrow_or_create_trace_by_id()` for a data stream -/
  | createTrace (id : ℕ)
  /-- `lttng_live_metadata_create_stream()` -/
  | createMetadataStream (id stream : ℕ)
  /-- The end of all of the data streams of the trace -/
  | removeTrace (id : ℕ)
  /-- `lttng_live_metadata_update()` -/
  | update (id : ℕ) (replies : List Reply) (parsed : Parsed)
  /-- A reply for a data stream has the `LTTNG_VIEWER_FLAG_NEW_METADATA` flag. -/
  | newMetadata (id : ℕ)
  /-- `lttng_live_force_new_streams_and_metadata()`, without any active stream iterator -/
  | force
deriving DecidableEq

inductive Step : Traces → Event → Traces → List Obs → Prop
  | createTrace {s : Traces} {id : ℕ} :
      Step s (.createTrace id) (Function.update s id (some ((s id).getD .new))) []
  | createMetadataStream {s : Traces} {id stream : ℕ} :
      Step s (.createMetadataStream id stream)
        (Function.update s id (some { (s id).getD .new with metadata := some stream })) []
  | removeTrace {s : Traces} {id : ℕ} : Step s (.removeTrace id) (Function.update s id none) []
  | update {s : Traces} {id : ℕ} {trace : Trace} {replies : List Reply} {parsed : Parsed}
      (h : s id = some trace) :
      Step s (.update id replies parsed)
        (Function.update s id (some (metadataUpdate trace replies parsed).2))
        (trace.observe replies)
  | newMetadata {s : Traces} {id : ℕ} {trace : Trace} (h : s id = some trace) :
      Step s (.newMetadata id) (Function.update s id (some (trace.setState .needed))) []
  | force {s : Traces}
      (h : ∀ id trace, s id = some trace → trace.metadataStreamState ≠ .closed) :
      Step s .force (fun id => (s id).map (·.setState .needed)) []
  | forceAbort {s : Traces} {id : ℕ} {trace : Trace} (h : s id = some trace)
      (hclosed : trace.metadataStreamState = .closed) : Step s .force s [.abort]

inductive Run (Allowed : Traces → List Obs → Event → Prop) : Traces → List Obs → Prop
  | nil : Run Allowed (fun _ => none) []
  | step {s s' : Traces} {log obs : List Obs} {event : Event} (h : Run Allowed s log)
      (hallowed : Allowed s log event) (hstep : Step s event s' obs) : Run Allowed s' (log ++ obs)

def AnyEvent (_ : Traces) (_ : List Obs) (_ : Event) : Prop := True

def NotAfter (a b : Obs) : Prop := ∀ stream, a = .metadataErr stream → b ≠ .sent stream

def Safe (log : List Obs) : Prop := .abort ∉ log ∧ log.Pairwise NotAfter

/-- No command is interrupted. -/
def Uninterrupted (replies : List Reply) : Prop :=
  replies.find? (fun reply => !reply.isOk) ≠ some .interrupted

/-- Stream IDs are new, no command is interrupted, and nothing marks a trace of which the relay
doesn't know the metadata stream anymore. -/
def Allowed (s : Traces) (log : List Obs) : Event → Prop
  | .createMetadataStream id stream =>
    .metadataErr stream ∉ log ∧
      (∀ id' trace, s id' = some trace → trace.metadata ≠ some stream) ∧
      ∀ trace, s id = some trace → trace.metadata = none
  | .update _ replies _ => Uninterrupted replies
  | .newMetadata id =>
    ∀ trace stream, s id = some trace → trace.metadata = some stream → .metadataErr stream ∉ log
  | .force =>
    ∀ id trace stream, s id = some trace → trace.metadata = some stream →
      .metadataErr stream ∉ log
  | _ => True

/-! ## One update -/

variable {stream id : ℕ} {replies : List Reply} {trace : Trace} {s : Traces} {log : List Obs}

theorem Uninterrupted.not_mem (h : Uninterrupted replies) : .abort ∉ observe stream replies := by
  unfold Uninterrupted at h
  induction replies with
  | nil => simp [observe]
  | cons reply replies ih =>
    cases reply with
    | ok bytes => simpa [observe] using ih h
    | interrupted => exact absurd rfl h
    | err | noNew | unknown | failed => simp [observe]

theorem metadataErr_mem_observe_iff (buf : List UInt8) :
    .metadataErr stream ∈ observe stream replies ↔
      ∃ metadataBuf, receive buf replies = .done metadataBuf true := by
  induction replies generalizing buf with
  | nil => simp [observe, receive]
  | cons reply replies ih =>
    cases reply with
    | ok bytes => simp [observe, receive, ih (buf ++ bytes)]
    | err | noNew | unknown | failed | interrupted => simp [observe, receive]

theorem observe_spec (stream : ℕ) (replies : List Reply) :
    (∀ stream', stream' ≠ stream → .metadataErr stream' ∉ observe stream replies ∧
      .sent stream' ∉ observe stream replies) ∧ (observe stream replies).Pairwise NotAfter := by
  induction replies with
  | nil => simp [observe]
  | cons reply replies ih =>
    cases reply with
    | ok bytes =>
      refine ⟨fun stream' hne => ?_, List.pairwise_cons.mpr ⟨fun _ _ _ h => (nomatch h), ih.2⟩⟩
      simp [observe, hne, ih.1 stream' hne]
    | err | noNew | unknown | failed | interrupted => simp +contextual [observe, NotAfter]

theorem afterLoop_spec (trace : Trace) (metadataBuf : List UInt8) (parsed : Parsed) :
    (afterLoop trace metadataBuf parsed).2.metadata = trace.metadata ∧
      ((afterLoop trace metadataBuf parsed).2.metadataStreamState = trace.metadataStreamState ∨
        (afterLoop trace metadataBuf parsed).2.metadataStreamState = .notNeeded) := by
  unfold afterLoop appendContent
  split_ifs
  · exact ⟨rfl, .inr rfl⟩
  · exact ⟨rfl, .inl rfl⟩
  · cases parsed <;> cases trace.hasTrace <;> simp [Trace.setState]

theorem metadataUpdate_spec (hmetadata : trace.metadata = some stream)
    (hneeded : trace.metadataStreamState = .needed) (replies : List Reply) (parsed : Parsed) :
    (metadataUpdate trace replies parsed).2.metadata = some stream ∧
      (.metadataErr stream ∈ observe stream replies →
        (metadataUpdate trace replies parsed).2.metadataStreamState ≠ .needed) ∧
      ((metadataUpdate trace replies parsed).2.metadataStreamState = .closed →
        .metadataErr stream ∈ observe stream replies) := by
  rw [metadataErr_mem_observe_iff [], metadataUpdate, hmetadata]
  dsimp only
  rw [if_neg (not_not.mpr hneeded)]
  cases receive [] replies with
  | pending | error | abort => simp [hmetadata, hneeded]
  | done metadataBuf closed =>
    obtain ⟨hmeta, hstate⟩ := afterLoop_spec (if closed then trace.setState .closed else trace)
      metadataBuf parsed
    dsimp only
    cases closed with
    | false =>
      rw [if_neg Bool.false_ne_true] at hmeta hstate ⊢
      rw [hneeded] at hstate
      refine ⟨hmeta.trans hmetadata, fun h => ?_, fun h => ?_⟩
      · obtain ⟨_, h⟩ := h
        cases h
      · rcases hstate with hstate | hstate <;> rw [hstate] at h <;> cases h
    | true =>
      rw [if_pos rfl] at hmeta hstate ⊢
      refine ⟨hmeta.trans hmetadata, fun _ h => ?_, fun _ => ⟨metadataBuf, rfl⟩⟩
      rcases hstate with hstate | hstate <;> rw [hstate] at h <;> cases h

/-! ## Whole runs -/

structure Inv (s : Traces) (log : List Obs) : Prop where
  safe : Safe log
  not_needed : ∀ {id trace stream}, s id = some trace → trace.metadata = some stream →
    .metadataErr stream ∈ log → trace.metadataStreamState ≠ .needed
  closed : ∀ {id trace}, s id = some trace → trace.metadataStreamState = .closed →
    ∃ stream, trace.metadata = some stream ∧ .metadataErr stream ∈ log
  unique : ∀ {id id' trace trace' stream}, s id = some trace → s id' = some trace' →
    trace.metadata = some stream → trace'.metadata = some stream → id = id'

theorem Inv.update {obs : List Obs} (h : Inv s log) (hsafe : Safe (log ++ obs))
    (hobs : ∀ stream, .metadataErr stream ∈ obs → trace.metadata = some stream)
    (hneeded : ∀ stream, trace.metadata = some stream → .metadataErr stream ∈ log ++ obs →
      trace.metadataStreamState ≠ .needed) (hclosed : trace.metadataStreamState = .closed →
      ∃ stream, trace.metadata = some stream ∧ .metadataErr stream ∈ log ++ obs)
    (hunique : ∀ id' trace' stream, id' ≠ id → s id' = some trace' →
      trace'.metadata = some stream → trace.metadata ≠ some stream) :
    Inv (Function.update s id (some trace)) (log ++ obs) where
  safe := hsafe
  not_needed := by
    intro id' trace' stream hs hmetadata herr
    by_cases hid : id' = id
    · subst hid
      rw [Function.update_self] at hs
      cases hs
      exact hneeded stream hmetadata herr
    · rw [Function.update_of_ne hid] at hs
      rcases List.mem_append.mp herr with herr | herr
      · exact h.not_needed hs hmetadata herr
      · exact absurd (hobs stream herr) (hunique id' trace' stream hid hs hmetadata)
  closed := by
    intro id' trace' hs hstate
    by_cases hid : id' = id
    · subst hid
      rw [Function.update_self] at hs
      cases hs
      exact hclosed hstate
    · rw [Function.update_of_ne hid] at hs
      obtain ⟨stream, hmetadata, herr⟩ := h.closed hs hstate
      exact ⟨stream, hmetadata, List.mem_append_left _ herr⟩
  unique := by
    intro id₁ id₂ trace₁ trace₂ stream h₁ h₂ hm₁ hm₂
    by_cases hid₁ : id₁ = id <;> by_cases hid₂ : id₂ = id
    · rw [hid₁, hid₂]
    · subst hid₁
      rw [Function.update_self] at h₁
      cases h₁
      rw [Function.update_of_ne hid₂] at h₂
      exact absurd hm₁ (hunique id₂ trace₂ stream hid₂ h₂ hm₂)
    · subst hid₂
      rw [Function.update_self] at h₂
      cases h₂
      rw [Function.update_of_ne hid₁] at h₁
      exact absurd hm₂ (hunique id₁ trace₁ stream hid₁ h₁ hm₁)
    · rw [Function.update_of_ne hid₁] at h₁
      rw [Function.update_of_ne hid₂] at h₂
      exact h.unique h₁ h₂ hm₁ hm₂

theorem Inv.unique_of_eq (h : Inv s log) {trace' : Trace} (hs : s id = some trace)
    (hmetadata : trace'.metadata = trace.metadata) :
    ∀ id' trace'' stream, id' ≠ id → s id' = some trace'' → trace''.metadata = some stream →
      trace'.metadata ≠ some stream := by
  intro id' trace'' stream hne hs' hm'' hm'
  exact hne (h.unique hs' hs hm'' (hmetadata ▸ hm'))

theorem Safe.observe (h : Safe log) (herr : .metadataErr stream ∉ log)
    (habort : Uninterrupted replies) :
    Safe (log ++ LiveMetadata.observe stream replies) := by
  obtain ⟨hother, hpairwise⟩ := observe_spec stream replies
  refine ⟨fun hmem => ?_, List.pairwise_append.mpr ⟨h.2, hpairwise, ?_⟩⟩
  · rcases List.mem_append.mp hmem with hmem | hmem
    · exact h.1 hmem
    · exact habort.not_mem hmem
  · rintro a ha b hb stream' rfl rfl
    by_cases heq : stream' = stream
    · exact herr (heq ▸ ha)
    · exact (hother stream' heq).2 hb

theorem Inv.metadataUpdate (h : Inv s log) (hs : s id = some trace)
    (habort : Uninterrupted replies) (parsed : Parsed) :
    Inv (Function.update s id (some (LiveMetadata.metadataUpdate trace replies parsed).2))
      (log ++ trace.observe replies) := by
  have hsame : Inv (Function.update s id (some trace)) (log ++ []) := by
    rw [← hs, Function.update_eq_self, List.append_nil]
    exact h
  cases hmetadata : trace.metadata with
  | none =>
    simp only [LiveMetadata.metadataUpdate, Trace.observe, hmetadata]
    exact hsame
  | some stream =>
    by_cases hneeded : trace.metadataStreamState = .needed
    swap
    · simp only [LiveMetadata.metadataUpdate, Trace.observe, hmetadata, hneeded, ne_eq,
        not_false_eq_true, if_true]
      exact hsame
    have herr : .metadataErr stream ∉ log := fun herr => h.not_needed hs hmetadata herr hneeded
    have hobserve : trace.observe replies = LiveMetadata.observe stream replies := by
      simp [Trace.observe, hmetadata, hneeded]
    obtain ⟨hmeta, hclosing, hclosed⟩ := metadataUpdate_spec hmetadata hneeded replies parsed
    rw [hobserve]
    refine h.update (h.safe.observe herr habort) (fun stream' hmem => ?_) (fun stream' hm hmem => ?_)
      (fun hstate => ⟨stream, hmeta, List.mem_append_right _ (hclosed hstate)⟩)
      (h.unique_of_eq hs (hmeta.trans hmetadata.symm))
    · by_contra hne
      have hne' : stream' ≠ stream := fun heq => hne (heq ▸ hmeta)
      exact ((observe_spec stream replies).1 stream' hne').1 hmem
    · obtain rfl := Option.some.inj (hmeta.symm.trans hm)
      exact hclosing ((List.mem_append.mp hmem).resolve_left herr)

theorem Inv.step {s' : Traces} {obs : List Obs} {event : Event} (h : Inv s log)
    (hallowed : Allowed s log event) (hstep : Step s event s' obs) : Inv s' (log ++ obs) := by
  cases hstep with
  | update hs => exact h.metadataUpdate hs hallowed _
  | forceAbort hs hclosed =>
    obtain ⟨stream, hmetadata, herr⟩ := h.closed hs hclosed
    exact absurd herr (hallowed _ _ _ hs hmetadata)
  | createTrace =>
    rename_i id
    cases hs : s id with
    | none =>
      exact h.update (by rw [List.append_nil]; exact h.safe) nofun nofun nofun nofun
    | some trace =>
      rw [Option.getD_some, ← hs, Function.update_eq_self, List.append_nil]
      exact h
  | createMetadataStream =>
    rename_i id stream
    obtain ⟨herr, hfresh, hnone⟩ := hallowed
    have hstate : ((s id).getD .new).metadataStreamState ≠ .closed := by
      cases hs : s id with
      | none => exact nofun
      | some trace =>
        intro hclosed
        obtain ⟨stream', hmetadata, -⟩ := h.closed hs hclosed
        exact nomatch (hnone trace hs).symm.trans hmetadata
    refine h.update (by rw [List.append_nil]; exact h.safe) nofun (fun stream' hm hmem => ?_)
      (fun hclosed => absurd hclosed hstate) (fun id' trace' stream' _ hs' hm' hm => ?_)
    · obtain rfl := Option.some.inj hm
      exact absurd (List.append_nil log ▸ hmem) herr
    · obtain rfl := Option.some.inj hm
      exact hfresh id' trace' hs' hm'
  | removeTrace =>
    rename_i id
    have hsub : ∀ {id' trace}, Function.update s id none id' = some trace → s id' = some trace := by
      intro id' trace hs
      by_cases hid : id' = id
      · subst hid
        rw [Function.update_self] at hs
        cases hs
      · rwa [Function.update_of_ne hid] at hs
    rw [List.append_nil]
    exact ⟨h.safe, fun hs => h.not_needed (hsub hs), fun hs => h.closed (hsub hs),
      fun hs hs' => h.unique (hsub hs) (hsub hs')⟩
  | newMetadata hs =>
    refine h.update (by rw [List.append_nil]; exact h.safe) nofun (fun stream hm hmem => ?_) nofun
      (h.unique_of_eq hs rfl)
    exact absurd (List.append_nil log ▸ hmem) (hallowed _ stream hs hm)
  | force =>
    rw [List.append_nil]
    refine ⟨h.safe, fun {id trace stream} hs hm herr => ?_, fun {id trace} hs hclosed => ?_,
      fun {id id' trace trace' stream} hs hs' hm hm' => ?_⟩
    · obtain ⟨trace₀, hs₀, rfl⟩ := Option.map_eq_some_iff.mp hs
      exact absurd herr (hallowed id trace₀ stream hs₀ hm)
    · obtain ⟨trace₀, hs₀, rfl⟩ := Option.map_eq_some_iff.mp hs
      cases hclosed
    · obtain ⟨trace₀, hs₀, rfl⟩ := Option.map_eq_some_iff.mp hs
      obtain ⟨trace₁, hs₁, rfl⟩ := Option.map_eq_some_iff.mp hs'
      exact h.unique hs₀ hs₁ hm hm'

def oneStream : Traces := Function.update (fun _ => none) 0 (some ⟨some 5, .needed, false⟩)

theorem run_oneStream {Allowed : Traces → List Obs → Event → Prop}
    (h : Allowed (fun _ => none) [] (.createMetadataStream 0 5)) : Run Allowed oneStream [] :=
  .step .nil h .createMetadataStream

theorem Run.update_zero {Allowed : Traces → List Obs → Event → Prop}
    (h : Run Allowed (Function.update s 0 (some trace)) log) (replies : List Reply)
    (parsed : Parsed)
    (hallowed : Allowed (Function.update s 0 (some trace)) log (.update 0 replies parsed)) :
    Run Allowed (Function.update s 0 (some (metadataUpdate trace replies parsed).2))
      (log ++ trace.observe replies) := by
  have hstep := h.step hallowed (.update (Function.update_self ..))
  rwa [Function.update_idem] at hstep

end Babeltrace.LiveMetadata
