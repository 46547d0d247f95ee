import Mathlib

/-!
# Running a graph

How `bt_graph_run()` and `bt_graph_run_once()` make the sinks consume (`lib/graph/graph.c`). What
the components return and the interruptions are up to the environment. A scheduler (`Sched`) which
only knows the sinks which aren't ended says which events are expected.
-/
namespace Babeltrace.GraphRun

inductive FuncStatus
  | ok
  | ended
  | again
  | error
  | memoryError
  deriving DecidableEq, Repr

def FuncStatus.isError : FuncStatus → Bool
  | .error | .memoryError => true
  | .ok | .ended | .again => false

/-! ## Queue of sinks -/

/-- The linked nodes, the head first, and the number of them as GLib counts it -/
structure GQueue where
  links : List ℕ
  length : UInt32
  deriving DecidableEq

namespace GQueue

def popHeadLink (queue : GQueue) : Option (ℕ × GQueue) :=
  match queue.links with
  | [] => none
  | sink :: links => some (sink, ⟨links, queue.length - 1⟩)

def pushTailLink (queue : GQueue) (sink : ℕ) : GQueue := ⟨queue.links ++ [sink], queue.length + 1⟩

/-- It doesn't check that the node is linked. -/
def deleteLink (queue : GQueue) (sink : ℕ) : GQueue := ⟨queue.links.erase sink, queue.length - 1⟩

end GQueue

/-- The node of `sink` isn't linked, and `status` is what the consume method returns. -/
def consumeSinkNode (queue : GQueue) (sink : ℕ) (status : FuncStatus) : FuncStatus × GQueue :=
  if status ≠ .ended then (status, queue.pushTailLink sink)
  else
    let queue := queue.deleteLink sink
    if queue.links ≠ [] then (.ok, queue) else (status, queue)

def consumeNoCheck (queue : GQueue) (consume : ℕ → FuncStatus) : FuncStatus × GQueue :=
  match queue.popHeadLink with
  | none => (.ended, queue)
  | some (sink, queue) => consumeSinkNode queue sink (consume sink)

/-! ## Graph -/

inductive Func
  | runOnce
  | run
  deriving DecidableEq, Repr

/-- `toConfigure` are the sinks of which the "graph is configured" method didn't succeed yet. -/
structure Graph where
  sinksToConsume : GQueue
  canConsume : Bool := true
  toConfigure : List ℕ

/-- A graph to which `n` sinks were added -/
def Graph.new (n : ℕ) : Graph :=
  { sinksToConsume := ⟨List.range n, UInt32.ofNat n⟩, toConfigure := List.range n }

/-- `canConsume` is what a function which returns sets the member of the graph to, if any. -/
inductive Pc
  | user
  | inside (func : Func)
  | returning (func : Func) (status : FuncStatus) (canConsume : Option Bool)

inductive Event
  | call (func : Func)
  | graphIsConfigured (sink : ℕ) (status : FuncStatus)
  | interrupted
  | consume (sink : ℕ) (status : FuncStatus)
  | ret (func : Func) (status : FuncStatus) (canConsume : Bool)
  deriving DecidableEq

/-- What remains of `bt_graph_run_once()`, or of an iteration of `bt_graph_run()`, once
`consume_no_check()` returned -/
def afterConsume (g : Graph) : Func → FuncStatus × GQueue → Graph × Pc
  | .runOnce, (status, queue) =>
    ({ g with sinksToConsume := queue }, .returning .runOnce status (some true))
  | .run, (status, queue) =>
    let g := { g with sinksToConsume := queue }
    let status := if status = .again ∧ 1 < queue.length then .ok else status
    if status = .ok then (g, .inside .run)
    else (g, .returning .run (if status = .ended then .ok else status) (some true))

/-- `bt_graph_run_once()` doesn't reach the call of `bt_graph_set_can_consume()`. -/
def afterConfigureFailure (g : Graph) (func : Func) (status : FuncStatus) : Graph × Pc :=
  (g, .returning func status (if func = .run then some true else none))

inductive Step : Graph × Pc → Event → Graph × Pc → Prop
  | call {g func} (h : g.canConsume = true) :
      Step (g, .user) (.call func) ({ g with canConsume := false }, .inside func)
  | configured {g func sink sinks} (h : g.toConfigure = sink :: sinks) :
      Step (g, .inside func) (.graphIsConfigured sink .ok)
        ({ g with toConfigure := sinks }, .inside func)
  | configureFailed {g func sink sinks status} (h : g.toConfigure = sink :: sinks)
      (hstatus : status.isError = true) :
      Step (g, .inside func) (.graphIsConfigured sink status) (afterConfigureFailure g func status)
  | interrupted {g} (h : g.toConfigure = []) :
      Step (g, .inside .run) .interrupted (g, .returning .run .again (some true))
  | consume {g func sink status} (h : g.toConfigure = [])
      (hsink : g.sinksToConsume.links.head? = some sink) :
      Step (g, .inside func) (.consume sink status)
        (afterConsume g func (consumeNoCheck g.sinksToConsume fun _ => status))
  | noSink {g g' func func' status canConsume} (h : g.toConfigure = [])
      (hsinks : g.sinksToConsume.links = [])
      (hret : afterConsume g func (consumeNoCheck g.sinksToConsume fun _ => .ok) =
        (g', .returning func' status (some canConsume))) :
      Step (g, .inside func) (.ret func' status canConsume) ({ g' with canConsume }, .user)
  | ret {g func status canConsume} :
      Step (g, .returning func status canConsume)
        (.ret func status (canConsume.getD g.canConsume))
        ({ g with canConsume := canConsume.getD g.canConsume }, .user)

inductive Steps : Graph × Pc → List Event → Graph × Pc → Prop
  | nil {s} : Steps s [] s
  | cons {s s' s'' event events} (step : Step s event s') (rest : Steps s' events s'') :
      Steps s (event :: events) s''

/-! ## Expected schedule -/

/-- `active` are the sinks which aren't ended, the next one to serve first. -/
structure Sched where
  active : List ℕ
  func : Option Func := none
  last : Option Event := none

def Event.status? : Event → Option FuncStatus
  | .graphIsConfigured _ status | .consume _ status => some status
  | .call _ | .interrupted | .ret _ _ _ => none

namespace Sched

def Failed (s : Sched) (status : FuncStatus) : Prop :=
  s.last.bind Event.status? = some status ∧ status.isError = true

def endStatus : Func → FuncStatus
  | .run => .ok
  | .runOnce => .ended

def Allows (s : Sched) : Event → Prop
  | .call _ => True
  | .graphIsConfigured _ _ | .interrupted => ∀ status, ¬s.Failed status
  | .consume sink _ => s.active.head? = some sink ∧ ∀ status, ¬s.Failed status
  | .ret func status canConsume =>
    canConsume = true ∧ (∀ failure, s.Failed failure → status = failure) ∧
      (status.isError = true → s.Failed status) ∧
      (status = endStatus func ↔ s.active = []) ∧
      (func = .run → status = .again → s.last = some .interrupted ∨
        ∃ sink, s.last = some (.consume sink .again) ∧ s.active = [sink])

def after (s : Sched) (event : Event) : Sched :=
  match event with
  | .call func => { s with func := some func, last := none }
  | .consume sink status =>
    { s with
      active := if status = .ended then s.active.tail else s.active.tail ++ [sink]
      last := some event }
  | .ret _ _ _ => { s with func := none, last := none }
  | .graphIsConfigured _ _ | .interrupted => { s with last := some event }

def AllowsAll : Sched → List Event → Prop
  | _, [] => True
  | s, event :: events => s.Allows event ∧ (s.after event).AllowsAll events

/-- Each sink which ends makes the length of the queue, of initially `n` sinks, two less. -/
def Harmless (n : ℕ) (s : Sched) : Event → Prop
  | .graphIsConfigured _ status => s.func = some .runOnce → status = .ok
  | .consume _ status => s.func = some .run → status = .again → 2 ≤ s.active.length →
      1 < (2 * (s.active.length : ℤ) - n) % 2 ^ 32
  | .interrupted => s.active ≠ []
  | .call _ | .ret _ _ _ => True

def HarmlessAll (n : ℕ) : Sched → List Event → Prop
  | _, [] => True
  | s, event :: events => s.Harmless n event ∧ (s.after event).HarmlessAll n events

end Sched

/-! ## Steps -/

theorem toNat_sub_two (x : UInt32) {k n : ℤ} (h : (x.toNat : ℤ) = (2 * (k + 1) - n) % 2 ^ 32) :
    ((x - 1 - 1).toNat : ℤ) = (2 * k - n) % 2 ^ 32 := by
  have hx := x.toNat_lt
  rw [UInt32.toNat_sub, UInt32.toNat_sub]
  simp only [UInt32.reduceToNat]
  omega

variable {n sink : ℕ} {s : Sched} {func : Func} {status : FuncStatus} {g : Graph} {pc : Pc}
  {queue : GQueue} {event : Event} {events : List Event}

theorem consumeNoCheck_cons {rest : List ℕ} (hlinks : queue.links = sink :: rest)
    (hsink : sink ∉ rest) (status : FuncStatus) :
    consumeNoCheck queue (fun _ => status) =
      if status = .ended then
        (if rest = [] then .ended else .ok, ⟨rest, queue.length - 1 - 1⟩)
      else (status, ⟨rest ++ [sink], queue.length⟩) := by
  have hpop : queue.popHeadLink = some (sink, ⟨rest, queue.length - 1⟩) := by
    rw [GQueue.popHeadLink, hlinks]
  simp only [consumeNoCheck, hpop, consumeSinkNode, GQueue.deleteLink, GQueue.pushTailLink,
    List.erase_of_not_mem hsink, UInt32.sub_add_cancel]
  by_cases hstatus : status = .ended
  · by_cases hrest : rest = [] <;> simp [hstatus, hrest]
  · simp [hstatus]

theorem consumeNoCheck_nil (hlinks : queue.links = []) (consume : ℕ → FuncStatus) :
    consumeNoCheck queue consume = (.ended, queue) := by
  simp [consumeNoCheck, GQueue.popHeadLink, hlinks]

structure Inv (n : ℕ) (g : Graph) (s : Sched) : Prop where
  links : g.sinksToConsume.links = s.active
  nodup : s.active.Nodup
  length : (g.sinksToConsume.length.toNat : ℤ) = (2 * (s.active.length : ℤ) - n) % 2 ^ 32
  active : g.toConfigure ≠ [] → s.active ≠ []

def PcOk (g : Graph) (s : Sched) : Pc → Prop
  | .user => g.canConsume = true
  | .inside func => g.canConsume = false ∧ s.func = some func ∧ ∀ status, ¬s.Failed status
  | .returning func status canConsume =>
    s.Allows (.ret func status (canConsume.getD g.canConsume))

theorem Sched.not_failed {last : Event} (hlast : s.last = some last)
    (h : ∀ status, last.status? = some status → status.isError = false) (status : FuncStatus) :
    ¬s.Failed status := by
  rintro ⟨hstatus, herr⟩
  rw [hlast] at hstatus
  rw [h status hstatus] at herr
  cases herr

theorem Sched.allows_ret {status' : FuncStatus} (hlast : s.last = some (.consume sink status))
    (herr : status.isError = true ∨ status'.isError = true → status' = status)
    (hend : status' = endStatus func ↔ s.active = [])
    (hagain : func = .run → status' = .again → status = .again ∧ s.active = [sink]) :
    s.Allows (.ret func status' true) := by
  have hfailed {failure : FuncStatus} :
      s.Failed failure ↔ status = failure ∧ failure.isError = true := by
    simp [Failed, hlast, Event.status?]
  refine ⟨rfl, ?_, ?_, hend, ?_⟩
  · intro failure hfailure
    obtain ⟨rfl, hfailure⟩ := hfailed.mp hfailure
    exact herr (.inl hfailure)
  · intro herr'
    have heq := herr (.inr herr')
    exact hfailed.mpr ⟨heq.symm, herr'⟩
  · intro hfunc hstatus
    obtain ⟨rfl, hactive⟩ := hagain hfunc hstatus
    exact .inr ⟨sink, hlast, hactive⟩

theorem step_consume (hinv : Inv n g s) (hpc : PcOk g s (.inside func)) (hconf : g.toConfigure = [])
    (hsink : s.active.head? = some sink) (hharm : s.Harmless n (.consume sink status)) :
    let s' := s.after (.consume sink status)
    let next := afterConsume g func (consumeNoCheck g.sinksToConsume fun _ => status)
    Inv n next.1 s' ∧ PcOk next.1 s' next.2 := by
  obtain ⟨rest, hactive⟩ := List.head?_eq_some_iff.mp hsink
  have hlinks := hinv.links.trans hactive
  have hnodup := hactive ▸ hinv.nodup
  obtain ⟨hnotin, hrest⟩ := List.nodup_cons.mp hnodup
  obtain ⟨hcan, hfunc, -⟩ := hpc
  have hlen := hinv.length
  rw [hactive, List.length_cons, Int.natCast_add, Int.natCast_one] at hlen
  intro s' next
  have hs'last : s'.last = some (.consume sink status) := rfl
  have hs'func : s'.func = some func := hfunc
  by_cases hended : status = .ended
  · subst hended
    have hs' : s'.active = rest := by simp [s', Sched.after, hactive]
    have hnext : next = afterConsume g func
        (if rest = [] then .ended else .ok, ⟨rest, g.sinksToConsume.length - 1 - 1⟩) := by
      simp only [next, consumeNoCheck_cons hlinks hnotin, if_true]
    have hqueue : next.1 = { g with
        sinksToConsume := ⟨rest, g.sinksToConsume.length - 1 - 1⟩ } := by
      rw [hnext]
      cases func <;> by_cases hnil : rest = [] <;> simp [afterConsume, hnil]
    constructor
    · rw [hqueue]
      exact ⟨hs'.symm, hs' ▸ hrest, by rw [hs']; exact toNat_sub_two _ hlen, fun h => absurd hconf h⟩
    · have hret {status' : FuncStatus} (hok : status'.isError = false) (hagain : status' ≠ .again)
          (hend : status' = Sched.endStatus func ↔ rest = []) :
          s'.Allows (.ret func status' true) :=
        Sched.allows_ret hs'last
          (fun h => h.elim (fun h => by cases h) fun h => by rw [hok] at h; cases h)
          (by rw [hs', hend]) fun _ h => absurd h hagain
      rw [hnext]
      cases func with
      | runOnce =>
        refine hret ?_ ?_ ?_
        all_goals by_cases hnil : rest = [] <;> simp [hnil, FuncStatus.isError, Sched.endStatus]
      | run =>
        by_cases hnil : rest = []
        · simp only [afterConsume, hnil, if_true, reduceCtorEq, false_and, if_false]
          exact hret rfl (by simp) (by simp [hnil, Sched.endStatus])
        · simp only [afterConsume, hnil, if_false, reduceCtorEq, false_and, if_true]
          exact ⟨hcan, hs'func, Sched.not_failed hs'last (by rintro _ ⟨⟩; rfl)⟩
  · have hs' : s'.active = rest ++ [sink] := by simp [s', Sched.after, hactive, hended]
    have hnext : next = afterConsume g func (status, ⟨rest ++ [sink], g.sinksToConsume.length⟩) := by
      simp only [next, consumeNoCheck_cons hlinks hnotin, if_neg hended]
    have hqueue : next.1 = { g with
        sinksToConsume := ⟨rest ++ [sink], g.sinksToConsume.length⟩ } := by
      rw [hnext]
      cases func with
      | runOnce => rfl
      | run => simp only [afterConsume]; split_ifs <;> rfl
    constructor
    · rw [hqueue]
      refine ⟨hs'.symm, ?_, ?_, fun h => absurd hconf h⟩
      · rw [hs', List.nodup_append_comm]
        exact hnodup
      · simpa [hs'] using hlen
    · have hne : s'.active ≠ [] := by simp [hs']
      rw [hnext]
      cases func with
      | runOnce =>
        exact Sched.allows_ret hs'last (fun _ => rfl)
          (by simp [hne, Sched.endStatus, hended]) fun h => by cases h
      | run =>
        simp only [afterConsume]
        by_cases hagain : status = .again
        · subst hagain
          by_cases hmany : 1 < g.sinksToConsume.length
          · simp only [hmany, and_self, if_true]
            exact ⟨hcan, hs'func, Sched.not_failed hs'last (by rintro _ ⟨⟩; rfl)⟩
          · simp only [hmany, and_false, if_false, reduceCtorEq]
            refine Sched.allows_ret hs'last (fun _ => rfl) (by simp [hne, Sched.endStatus]) ?_
            rintro - -
            refine ⟨rfl, ?_⟩
            -- otherwise the length is large enough
            have hone : ¬2 ≤ s.active.length := by
              intro htwo
              have h := hharm hfunc rfl htwo
              rw [← hinv.length] at h
              exact hmany (UInt32.lt_iff_toNat_lt.mpr (Int.ofNat_lt.mp h))
            have hnil : rest = [] := by
              rw [hactive, List.length_cons] at hone
              exact List.length_eq_zero_iff.mp (by omega)
            simp [hs', hnil]
        · simp only [hagain, false_and, if_false]
          by_cases hok : status = .ok
          · simp only [hok, if_true]
            exact ⟨hcan, hs'func, Sched.not_failed hs'last (by rintro _ ⟨⟩; rw [hok]; rfl)⟩
          · simp only [hok, hended, if_false]
            exact Sched.allows_ret hs'last (fun _ => rfl)
              (by simp [hne, Sched.endStatus, hok]) fun _ h => absurd h hagain

/-- Whatever is left to configure or to consume, a call goes on until it returns. -/
theorem exists_step (g : Graph) (hpc : pc ≠ .user) : ∃ event next, Step (g, pc) event next := by
  cases pc with
  | user => exact absurd rfl hpc
  | returning func status canConsume => exact ⟨_, _, .ret⟩
  | inside func =>
    cases hconf : g.toConfigure with
    | cons sink sinks => exact ⟨_, _, .configured hconf⟩
    | nil =>
      cases hlinks : g.sinksToConsume.links with
      | cons sink rest =>
        exact ⟨.consume sink .ok, _, .consume hconf (congrArg List.head? hlinks)⟩
      | nil =>
        have hret : afterConsume g func (consumeNoCheck g.sinksToConsume fun _ => .ok) =
            (g, .returning func (Sched.endStatus func) (some true)) := by
          rw [consumeNoCheck_nil hlinks]
          cases func <;> rfl
        exact ⟨_, _, .noSink hconf hlinks hret⟩

theorem step_configureFailed (hinv : Inv n g s) (hconf : g.toConfigure ≠ [])
    (hstatus : status.isError = true) {canConsume : Bool} :
    (s.after (.graphIsConfigured sink status)).Allows (.ret func status canConsume) ↔
      canConsume = true := by
  refine ⟨fun h => h.1, fun h => ⟨h, ?_, ?_, ?_, ?_⟩⟩
  · rintro failure ⟨hlast, -⟩
    exact Option.some.inj hlast
  · exact fun herr => ⟨rfl, herr⟩
  · refine iff_of_false ?_ (hinv.active hconf)
    rintro rfl
    cases func <;> cases hstatus
  · rintro - rfl
    cases hstatus

theorem step_inv {next : Graph × Pc} (hinv : Inv n g s) (hpc : PcOk g s pc)
    (hstep : Step (g, pc) event next) (hharm : s.Harmless n event) :
    s.Allows event ∧ Inv n next.1 (s.after event) ∧ PcOk next.1 (s.after event) next.2 := by
  cases hstep with
  | call h => exact ⟨trivial, ⟨hinv.1, hinv.2, hinv.3, hinv.4⟩, rfl, rfl, fun _ h => by cases h.1⟩
  | configured h =>
    obtain ⟨hcan, hfunc, hfailed⟩ := hpc
    have hactive := hinv.active (by simp [h])
    exact ⟨hfailed, ⟨hinv.1, hinv.2, hinv.3, fun _ => hactive⟩, hcan, hfunc,
      Sched.not_failed rfl (by rintro _ ⟨⟩; rfl)⟩
  | configureFailed h hstatus =>
    obtain ⟨hcan, hfunc, hfailed⟩ := hpc
    refine ⟨hfailed, ⟨hinv.1, hinv.2, hinv.3, hinv.4⟩,
      (step_configureFailed hinv (by simp [h]) hstatus).mpr ?_⟩
    rename_i func _ _ _
    cases func with
    | run => rfl
    | runOnce =>
      rw [hharm hfunc] at hstatus
      cases hstatus
  | interrupted h =>
    refine ⟨hpc.2.2, ⟨hinv.1, hinv.2, hinv.3, hinv.4⟩, rfl, ?_, ?_, ?_, fun _ _ => .inl rfl⟩
    · rintro failure ⟨hlast, -⟩
      cases hlast
    · exact fun herr => by cases herr
    · exact iff_of_false (by simp [Sched.endStatus]) hharm
  | consume h hsink =>
    have hsink' : s.active.head? = _ := hinv.links ▸ hsink
    exact ⟨⟨hsink', hpc.2.2⟩, step_consume hinv hpc h hsink' hharm⟩
  | noSink h hsinks hret =>
    have hnil : s.active = [] := hinv.links ▸ hsinks
    rw [consumeNoCheck_nil hsinks] at hret
    rename_i g' func func' status canConsume
    have hfunc : func' = func ∧ status = Sched.endStatus func ∧ canConsume = true ∧
        g'.sinksToConsume = g.sinksToConsume ∧ g'.toConfigure = g.toConfigure := by
      cases func <;> simp [afterConsume] at hret <;> obtain ⟨rfl, rfl, rfl, rfl⟩ := hret <;>
        simp [Sched.endStatus]
    obtain ⟨rfl, rfl, rfl, hqueue, hconf⟩ := hfunc
    refine ⟨⟨rfl, ?_, ?_, iff_of_true rfl hnil, ?_⟩, ⟨?_, hinv.2, ?_, ?_⟩, rfl⟩
    · exact fun failure hfailure => absurd hfailure (hpc.2.2 failure)
    · cases func' <;> simp [Sched.endStatus, FuncStatus.isError]
    · rintro rfl hagain
      cases hagain
    · exact (congrArg GQueue.links hqueue).trans hinv.1
    · exact hqueue ▸ hinv.3
    · exact fun hne => absurd (hconf.trans h) hne
  | ret => exact ⟨hpc, ⟨hinv.1, hinv.2, hinv.3, hinv.4⟩, hpc.1⟩

theorem step_harmful {next : Graph × Pc} (hinv : Inv n g s) (hpc : PcOk g s pc)
    (hstep : Step (g, pc) event next) (hharm : ¬s.Harmless n event) :
    ∃ func status canConsume, next.2 = .returning func status canConsume ∧
      ¬(s.after event).Allows (.ret func status (canConsume.getD next.1.canConsume)) := by
  cases hstep with
  | call | noSink | ret => exact absurd trivial hharm
  | configured h => exact absurd (fun _ => rfl) hharm
  | configureFailed h hstatus =>
    obtain ⟨hcan, hfunc, -⟩ := hpc
    simp only [Sched.Harmless, Classical.not_imp] at hharm
    cases hharm.1.symm.trans hfunc
    refine ⟨_, _, _, rfl, fun hallows => ?_⟩
    have hcan' := (step_configureFailed hinv (by simp [h]) hstatus).mp hallows
    simp only [afterConfigureFailure, reduceCtorEq, if_false, Option.getD_none, hcan] at hcan'
  | interrupted h =>
    refine ⟨_, _, _, rfl, fun hallows => ?_⟩
    have hnil : s.active = [] := not_not.mp hharm
    cases hallows.2.2.2.1.mpr hnil
  | consume h hsink =>
    obtain ⟨-, hfunc, -⟩ := hpc
    simp only [Sched.Harmless, Classical.not_imp] at hharm
    obtain ⟨hrun, rfl, htwo, hlen⟩ := hharm
    cases hrun.symm.trans hfunc
    have hsink' := hinv.links ▸ hsink
    obtain ⟨rest, hactive⟩ := List.head?_eq_some_iff.mp hsink'
    have hnotin := (List.nodup_cons.mp (hactive ▸ hinv.nodup)).1
    have hfew : ¬1 < g.sinksToConsume.length := by
      rw [← hinv.length] at hlen
      exact fun h => hlen (Int.ofNat_lt.mpr (UInt32.lt_iff_toNat_lt.mp h))
    rw [consumeNoCheck_cons (hinv.links.trans hactive) hnotin]
    simp only [reduceCtorEq, if_false, afterConsume, hfew, and_false]
    refine ⟨_, _, _, rfl, fun hallows => ?_⟩
    obtain ⟨-, -, -, -, hagain⟩ := hallows
    obtain hlast | ⟨sink, -, hone⟩ := hagain rfl rfl
    · cases hlast
    · have hlen := congrArg List.length hone
      simp only [Sched.after, reduceCtorEq, if_false, hactive, List.tail_cons, List.length_append,
        List.length_cons, List.length_nil] at hlen
      rw [hactive, List.length_cons] at htwo
      omega

/-! ## Runs -/

theorem Steps.allowsAll {last : Graph × Pc} (hsteps : Steps (g, pc) events last) (hinv : Inv n g s)
    (hpc : PcOk g s pc) (hharm : s.HarmlessAll n events) : s.AllowsAll events := by
  induction events generalizing g pc s with
  | nil => trivial
  | cons event events ih =>
    cases hsteps with
    | cons step rest =>
      obtain ⟨hallows, hinv', hpc'⟩ := step_inv hinv hpc step hharm.1
      exact ⟨hallows, ih rest hinv' hpc' hharm.2⟩

theorem Steps.harmlessAll {g' : Graph} (hsteps : Steps (g, pc) events (g', .user))
    (hinv : Inv n g s) (hpc : PcOk g s pc) (hallows : s.AllowsAll events) :
    s.HarmlessAll n events := by
  induction events generalizing g pc s with
  | nil => trivial
  | cons event events ih =>
    cases hsteps with
    | cons step rest =>
      by_cases hharm : s.Harmless n event
      · obtain ⟨-, hinv', hpc'⟩ := step_inv hinv hpc step hharm
        exact ⟨hharm, ih rest hinv' hpc' hallows.2⟩
      · -- only the return may follow
        rename_i next
        obtain ⟨g'', pc'⟩ := next
        obtain ⟨func, status, canConsume, rfl, hnot⟩ := step_harmful hinv hpc step hharm
        cases rest with
        | cons step' rest' =>
          cases step' with
          | ret => exact absurd hallows.2.1 hnot

theorem inv_new (hn : 0 < n) : Inv n (Graph.new n) ⟨List.range n, none, none⟩ where
  links := rfl
  nodup := List.nodup_range
  length := by
    simp only [Graph.new, UInt32.toNat_ofNat', List.length_range]
    omega
  active _ := by simpa using hn.ne'

/-- Whatever the methods of `n` sinks return and whenever the graph is interrupted, any number of
calls do what's expected if the graph isn't interrupted once all the sinks are ended, the "graph is
configured" methods succeed during `bt_graph_run_once()`, and no consume method returns "try again"
during `bt_graph_run()` while at least two sinks, half of the initial ones (rounded up), are left.
-/
theorem steps_schedule {n : ℕ} (hn : 0 < n) {g : Graph} {pc : Pc}
    (hsteps : Steps (Graph.new n, .user) events (g, pc)) :
    (Sched.HarmlessAll n ⟨List.range n, none, none⟩ events →
        Sched.AllowsAll ⟨List.range n, none, none⟩ events) ∧
      (pc = .user → Sched.AllowsAll ⟨List.range n, none, none⟩ events →
        Sched.HarmlessAll n ⟨List.range n, none, none⟩ events) := by
  refine ⟨hsteps.allowsAll (inv_new hn) rfl, ?_⟩
  rintro rfl hallows
  exact hsteps.harmlessAll (inv_new hn) rfl hallows

theorem steps_schedule_two :
    0 < 2 ∧ ∃ events g, Steps (Graph.new 2, .user) events (g, .user) ∧ events.length = 6 ∧
      Sched.AllowsAll ⟨List.range 2, none, none⟩ events := by
  have hsteps : Steps (Graph.new 2, .user)
      [.call .run, .graphIsConfigured 0 .ok, .graphIsConfigured 1 .ok, .consume 0 .ended,
        .consume 1 .ended, .ret .run .ok true] (⟨⟨[], 0xfffffffe⟩, true, []⟩, .user) :=
    .cons (.call rfl) (.cons (.configured rfl) (.cons (.configured rfl)
      (.cons (.consume rfl rfl) (.cons (.consume rfl rfl) (.cons .ret .nil)))))
  refine ⟨by decide, _, _, hsteps, rfl, (steps_schedule (by decide) hsteps).1 ?_⟩
  simp [Sched.HarmlessAll, Sched.Harmless, Sched.after]

/-- With three sinks of which one is ended, `bt_graph_run()` returns "try again" although two are
left; and the graph can't consume anymore once a "graph is configured" method fails. -/
theorem steps_again_two_left :
    (∃ events g, Steps (Graph.new 3, .user) events (g, .user) ∧
      [.consume 0 .ended, .consume 1 .again, .ret .run .again true] <:+ events ∧
      g.sinksToConsume.links = [2, 1] ∧
      ¬Sched.AllowsAll ⟨List.range 3, none, none⟩ events) ∧
    ∃ events g, Steps (Graph.new 1, .user) events (g, .user) ∧
      events = [.call .runOnce, .graphIsConfigured 0 .error, .ret .runOnce .error false] ∧
      g.canConsume = false ∧ ¬Sched.AllowsAll ⟨List.range 1, none, none⟩ events := by
  constructor
  · have hsteps : Steps (Graph.new 3, .user)
        [.call .run, .graphIsConfigured 0 .ok, .graphIsConfigured 1 .ok, .graphIsConfigured 2 .ok,
          .consume 0 .ended, .consume 1 .again, .ret .run .again true]
        (⟨⟨[2, 1], 1⟩, true, []⟩, .user) :=
      .cons (.call rfl) (.cons (.configured rfl) (.cons (.configured rfl) (.cons (.configured rfl)
        (.cons (.consume rfl rfl) (.cons (.consume rfl rfl) (.cons .ret .nil))))))
    refine ⟨_, _, hsteps, ⟨[.call .run, .graphIsConfigured 0 .ok, .graphIsConfigured 1 .ok,
      .graphIsConfigured 2 .ok], rfl⟩, rfl, ?_⟩
    simp [Sched.AllowsAll, Sched.Allows, Sched.after, Sched.Failed, List.range_succ]
  · have hsteps : Steps (Graph.new 1, .user)
        [.call .runOnce, .graphIsConfigured 0 .error, .ret .runOnce .error false]
        (⟨⟨[0], 1⟩, false, [0]⟩, .user) :=
      .cons (.call rfl) (.cons (.configureFailed rfl rfl) (.cons .ret .nil))
    refine ⟨_, _, hsteps, rfl, rfl, ?_⟩
    simp [Sched.AllowsAll, Sched.Allows]

end Babeltrace.GraphRun
