import Mathlib

/-!
# Delayed error reporting of C++ message iterators

When `_next()` throws with messages to return, `bt2::UserMessageIterator::next()` returns them and
keeps the error for the next call; all the other methods first drop it. `Reported` is the purpose of
the kept error. It holds for the runs which, from the failure of `_next()` to a successful seek,
have neither a query nor a failing seek.
-/
namespace Babeltrace.UserMsgIter

inductive Exc where
  | tryAgain
  | memError
  | error
  | other
  deriving DecidableEq, Repr

inductive ExcToThrowType where
  | none
  | error
  | memError
  deriving DecidableEq, Repr

/-- The exception which `next()` throws for a saved type. -/
def ExcToThrowType.exc : ExcToThrowType → Exc
  | error => .error
  | _ => .memError

/-- The messages it appends, its exception, and the error of the current thread at the end -/
structure NextRes (U M E : Type) where
  msgs : List M
  exc : Option Exc
  libError : Option E
  user : U

/-- The overloadable methods of a user message iterator with state `U`. -/
structure User (U M E : Type) where
  next : U → NextRes U M E
  canSeekBeginning : U → Except Exc Bool × U
  seekBeginning : U → Except Exc Unit × U
  canSeekNsFromOrigin : ℤ → U → Except Exc Bool × U
  seekNsFromOrigin : ℤ → U → Except Exc Unit × U

/-- There is no saved library error without a saved exception type. -/
structure MsgIter (U E : Type) where
  user : U
  excToThrowType : ExcToThrowType
  savedLibError : Option E
  saved : excToThrowType = .none → savedLibError = none

inductive Call where
  | next
  | canSeekBeginning
  | seekBeginning
  | canSeekNsFromOrigin (nsFromOrigin : ℤ)
  | seekNsFromOrigin (nsFromOrigin : ℤ)
  deriving DecidableEq, Repr

inductive Ret (M E : Type) where
  | msgs (msgs : List M)
  | canSeek (canSeek : Bool)
  | seeked
  | threw (exc : Exc) (libError : Option E)
  deriving DecidableEq, Repr

structure Event (U M E : Type) where
  call : Call
  ret : Ret M E
  userNext : Option (NextRes U M E)

variable {U M E : Type}

def MsgIter.new (user : U) : MsgIter U E := ⟨user, .none, none, fun _ => rfl⟩

/-- The private `_resetError()` -/
def MsgIter.resetError (_ : MsgIter U E) (user : U) : MsgIter U E := .new user

namespace MsgIter

variable (u : User U M E)

def next (it : MsgIter U E) : Event U M E × MsgIter U E :=
  if it.excToThrowType ≠ .none then
    (⟨.next, .threw it.excToThrowType.exc it.savedLibError, none⟩,
      { it with savedLibError := none, saved := fun _ => rfl })
  else
    let res := u.next it.user
    let again : MsgIter U E := .new res.user
    match res.exc with
    | none => (⟨.next, .msgs res.msgs, some res⟩, again)
    | some exc =>
      if res.msgs.isEmpty then
        (⟨.next, .threw exc res.libError, some res⟩, again)
      else
        match exc with
        | .tryAgain => (⟨.next, .msgs res.msgs, some res⟩, again)
        | .memError =>
          (⟨.next, .msgs res.msgs, some res⟩, ⟨res.user, .memError, res.libError, nofun⟩)
        | .error => (⟨.next, .msgs res.msgs, some res⟩, ⟨res.user, .error, res.libError, nofun⟩)
        | .other => (⟨.next, .threw .other res.libError, some res⟩, again)

/-- `query` is the user's method. -/
def canSeek (it : MsgIter U E) (call : Call) (query : U → Except Exc Bool × U) :
    Event U M E × MsgIter U E :=
  let (res, user) := query it.user
  let ret := match res with
    | .ok b => .canSeek b
    | .error exc => .threw exc none
  (⟨call, ret, none⟩, it.resetError user)

/-- `seek` is the user's method. -/
def seek (it : MsgIter U E) (call : Call) (seek : U → Except Exc Unit × U) :
    Event U M E × MsgIter U E :=
  let (res, user) := seek it.user
  let ret := match res with
    | .ok () => .seeked
    | .error exc => .threw exc none
  (⟨call, ret, none⟩, it.resetError user)

def call (it : MsgIter U E) : Call → Event U M E × MsgIter U E
  | .next => it.next u
  | .canSeekBeginning => it.canSeek .canSeekBeginning u.canSeekBeginning
  | .seekBeginning => it.seek .seekBeginning u.seekBeginning
  | .canSeekNsFromOrigin ns => it.canSeek (.canSeekNsFromOrigin ns) (u.canSeekNsFromOrigin ns)
  | .seekNsFromOrigin ns => it.seek (.seekNsFromOrigin ns) (u.seekNsFromOrigin ns)

def run (it : MsgIter U E) : List Call → List (Event U M E)
  | [] => []
  | c :: cs => (it.call u c).1 :: (it.call u c).2.run cs

end MsgIter

/-! ## What is expected of a run -/

def Exc.isError : Exc → Bool
  | error | memError => true
  | _ => false

def Event.Fails (e : Event U M E) (res : NextRes U M E) (exc : Exc) : Prop :=
  e.userNext = some res ∧ res.msgs ≠ [] ∧ res.exc = some exc ∧ exc.isError

def Event.seekSucceeds (e : Event U M E) : Bool :=
  match e.ret with
  | .seeked => true
  | _ => false

/-- No seek of the events `mid` between both succeeds. -/
def AfterFailure (tr : List (Event U M E)) (e : Event U M E) (res : NextRes U M E) (exc : Exc)
    (mid : List (Event U M E)) (f : Event U M E) : Prop :=
  (∃ pre post, tr = pre ++ e :: (mid ++ f :: post)) ∧ e.Fails res exc ∧
    ∀ g ∈ mid, ¬ g.seekSucceeds

/-- The messages of a failing `_next()` are returned. Then, before a seek succeeds, `next()` throws
an error of the same type, the first time with the error of the current thread. -/
def Reported (tr : List (Event U M E)) : Prop :=
  (∀ e ∈ tr, ∀ res exc, e.Fails res exc → e.ret = .msgs res.msgs) ∧
  ∀ e res exc mid f, AfterFailure tr e res exc mid f → f.call = .next →
    f.userNext = none ∧ (∃ lib, f.ret = .threw exc lib) ∧
      ((∀ g ∈ mid, g.call ≠ .next) → f.ret = .threw exc res.libError)

def Event.dropsError (e : Event U M E) : Bool :=
  match e.call with
  | .next => false
  | .canSeekBeginning | .canSeekNsFromOrigin _ => true
  | .seekBeginning | .seekNsFromOrigin _ => !e.seekSucceeds

def Careful (tr : List (Event U M E)) : Prop :=
  ∀ e res exc mid f, AfterFailure tr e res exc mid f → ¬ f.dropsError

/-! ## One call -/

/-- The iterator has an error of type `exc` to report. -/
def MsgIter.Keeps (it : MsgIter U E) (exc : Exc) : Prop :=
  it.excToThrowType ≠ .none ∧ it.excToThrowType.exc = exc

variable {u : User U M E} {it : MsgIter U E} {exc : Exc} {res : NextRes U M E} {c : Call}
  {calls : List Call} {e f : Event U M E} {mid : List (Event U M E)}

theorem next_of_keeps (h : it.Keeps exc) :
    (it.next u).1 = ⟨.next, .threw exc it.savedLibError, none⟩ ∧ (it.next u).2.Keeps exc := by
  obtain ⟨hne, rfl⟩ := h
  simp only [MsgIter.next, if_pos hne]
  exact ⟨trivial, hne, rfl⟩

theorem next_of_fails (h : (it.next u).1.Fails res exc) :
    (it.next u).1.ret = .msgs res.msgs ∧ (it.next u).2.Keeps exc ∧
      (it.next u).2.savedLibError = res.libError := by
  obtain ⟨huser, hmsgs, hexc, herr⟩ := h
  by_cases hne : it.excToThrowType ≠ .none
  · simp [MsgIter.next, hne] at huser
  · -- `_next()` ran: its result is `res` on every path
    obtain rfl : u.next it.user = res := by
      simp only [MsgIter.next, if_neg hne] at huser
      split at huser
      · exact Option.some.inj huser
      · split at huser
        · exact Option.some.inj huser
        · split at huser <;> exact Option.some.inj huser
    have hnonempty : (u.next it.user).msgs.isEmpty = false := by simpa using hmsgs
    cases exc <;>
      simp_all [MsgIter.next, MsgIter.Keeps, Exc.isError, ExcToThrowType.exc]

theorem call_of_fails (h : (it.call u c).1.Fails res exc) :
    (it.call u c).1.ret = .msgs res.msgs ∧ (it.call u c).2.Keeps exc ∧
      (it.call u c).2.savedLibError = res.libError := by
  cases c with
  | next => exact next_of_fails h
  | canSeekBeginning | seekBeginning | canSeekNsFromOrigin | seekNsFromOrigin => cases h.1

theorem call_call (c : Call) : (it.call u c).1.call = c := by
  cases c with
  | next =>
    simp only [MsgIter.call, MsgIter.next]
    split
    · rfl
    · split
      · rfl
      · split
        · rfl
        · split <;> rfl
  | canSeekBeginning | seekBeginning | canSeekNsFromOrigin | seekNsFromOrigin => rfl

theorem call_eq_next (hseek : ¬ (it.call u c).1.seekSucceeds)
    (hdrop : ¬ (it.call u c).1.dropsError) : c = .next := by
  have hc := @call_call _ _ _ u it c
  cases c <;> simp_all [Event.dropsError]

/-! ## A whole run -/

theorem run_split {pre rest : List (Event U M E)} (h : it.run u calls = pre ++ e :: rest) :
    ∃ it' : MsgIter U E, ∃ c cs, e = (it'.call u c).1 ∧ rest = (it'.call u c).2.run u cs := by
  induction pre generalizing it calls with
  | nil =>
    cases calls with
    | nil => cases h
    | cons c cs =>
      obtain ⟨rfl, rfl⟩ := List.cons.inj h
      exact ⟨it, c, cs, rfl, rfl⟩
  | cons p pre ih =>
    cases calls with
    | nil => cases h
    | cons c cs => exact ih (List.cons.inj h).2

theorem run_of_keeps {mid post : List (Event U M E)} (hkeeps : it.Keeps exc)
    (hrun : it.run u calls = mid ++ f :: post) (hmid : ∀ g ∈ mid, ¬ g.seekSucceeds ∧ ¬ g.dropsError)
    (hf : f.call = .next) :
    f.userNext = none ∧ (∃ lib, f.ret = .threw exc lib) ∧
      ((∀ g ∈ mid, g.call ≠ .next) → f.ret = .threw exc it.savedLibError) := by
  induction mid generalizing it calls with
  | nil =>
    cases calls with
    | nil => cases hrun
    | cons c cs =>
      obtain ⟨rfl, -⟩ := List.cons.inj hrun
      rw [call_call] at hf
      subst hf
      have hnext : (it.call u .next).1 = ⟨.next, .threw exc it.savedLibError, none⟩ :=
        (next_of_keeps hkeeps).1
      rw [hnext]
      exact ⟨rfl, ⟨_, rfl⟩, fun _ => rfl⟩
  | cons g mid ih =>
    cases calls with
    | nil => cases hrun
    | cons c cs =>
      obtain ⟨rfl, hrest⟩ := List.cons.inj hrun
      obtain ⟨hseek, hdrop⟩ := hmid _ List.mem_cons_self
      obtain rfl := call_eq_next hseek hdrop
      obtain ⟨hnone, hthrew, -⟩ := ih (next_of_keeps hkeeps).2 hrest
        (fun g hg => hmid g (List.mem_cons_of_mem _ hg))
      exact ⟨hnone, hthrew, fun hno => absurd (call_call _) (hno _ List.mem_cons_self)⟩

theorem afterFailure_init {tr : List (Event U M E)} {e f g : Event U M E}
    (h : AfterFailure tr e res exc mid f) (hg : g ∈ mid) :
    ∃ mid', AfterFailure tr e res exc mid' g := by
  obtain ⟨⟨pre, post, rfl⟩, hfails, hmid⟩ := h
  obtain ⟨m, m', rfl⟩ := List.append_of_mem hg
  exact ⟨m, ⟨pre, m' ++ f :: post, by simp⟩, hfails,
    fun g hg => hmid g (List.mem_append_left _ hg)⟩

/-- If no query and no failing seek comes between a failure of `_next()` and a successful seek, then
each delayed error is reported. -/
theorem run_reported (u : User U M E) (user : U) (calls : List Call)
    (h : Careful ((MsgIter.new user).run u calls)) :
    Reported ((MsgIter.new user).run u calls) := by
  constructor
  · intro e he res exc hfails
    obtain ⟨pre, rest, hsplit⟩ := List.append_of_mem he
    obtain ⟨it, c, cs, rfl, -⟩ := run_split hsplit
    exact (call_of_fails hfails).1
  · intro e res exc mid f hafter hf
    have hmid : ∀ g ∈ mid, ¬ g.seekSucceeds ∧ ¬ g.dropsError := fun g hg =>
      have ⟨mid', hg'⟩ := afterFailure_init hafter hg
      ⟨hafter.2.2 g hg, h e res exc mid' g hg'⟩
    obtain ⟨⟨pre, post, hsplit⟩, hfails, -⟩ := hafter
    obtain ⟨it, c, cs, rfl, hrest⟩ := run_split hsplit
    obtain ⟨-, hkeeps, hlib⟩ := call_of_fails hfails
    rw [← hlib]
    exact run_of_keeps hkeeps hrest.symm hmid hf

/-- It appends a message and then throws, each time. -/
def throwing : User Unit ℕ String where
  next _ := ⟨[7], some .error, some "cause", ()⟩
  canSeekBeginning _ := (.ok false, ())
  seekBeginning _ := (.ok (), ())
  canSeekNsFromOrigin _ _ := (.ok false, ())
  seekNsFromOrigin _ _ := (.ok (), ())

theorem run_reported_throwing :
    Careful ((MsgIter.new ()).run throwing [.next, .next]) ∧
      Reported ((MsgIter.new ()).run throwing [.next, .next]) := by
  have hcareful : Careful ((MsgIter.new ()).run throwing [.next, .next]) := by
    rintro e res exc mid f ⟨⟨pre, post, hsplit⟩, -, -⟩
    have hf : f ∈ (MsgIter.new ()).run throwing [.next, .next] := by
      rw [hsplit]
      simp
    have hall : ∀ f ∈ (MsgIter.new ()).run throwing [.next, .next], ¬ f.dropsError := by
      simp [MsgIter.run, Event.dropsError, call_call]
    exact hall f hf
  exact ⟨hcareful, run_reported throwing () [.next, .next] hcareful⟩

/-- Asking if the iterator can seek its beginning makes the error disappear. -/
theorem query_drops_error :
    ¬ Reported ((MsgIter.new ()).run throwing [.next, .canSeekBeginning, .next]) := by
  rintro ⟨-, h⟩
  have hlast := h _ ⟨[7], some .error, some "cause", ()⟩ .error
    [⟨.canSeekBeginning, .canSeek false, none⟩] _
    ⟨⟨[], [], rfl⟩, ⟨rfl, by simp, rfl, rfl⟩, by simp [Event.seekSucceeds]⟩ rfl
  cases hlast.1

end Babeltrace.UserMsgIter
