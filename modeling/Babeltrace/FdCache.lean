import Mathlib

/-!
# File descriptor cache

`fd-cache.cpp`: a hash table from the device and inode numbers of a file to a handle. Around it, the
descriptor table of the process, in which other code opens and closes its own descriptors.
`bt_fd_cache_put_handle()` closes the descriptor of a handle which isn't referred to anymore, and
the destruction function of the hash table closes it again.
-/
namespace Babeltrace.FdCache

/-! ## Model -/

structure FileKey where
  dev : UInt64
  ino : UInt64
  deriving DecidableEq

structure Opened where
  file : FileKey
  cached : Bool
  serial : ℕ
  deriving DecidableEq

structure FdHandleInternal where
  fd : ℤ
  refCount : UInt64
  key : FileKey

/-- A `close()` call which fails because the descriptor isn't open closes `none`. -/
structure State where
  cache : FileKey → Option ℕ := fun _ => none
  handles : ℕ → Option FdHandleInternal := fun _ => none
  fds : ℤ → Option Opened := fun _ => none
  serial : ℕ := 0
  opens : List Opened := []
  closes : List (Option Opened) := []

namespace State

/-- `close()`, called by the cache -/
def close (s : State) (fd : ℤ) : State :=
  { s with fds := Function.update s.fds fd none, closes := s.closes ++ [s.fds fd] }

def «open» (s : State) (file : FileKey) (cached : Bool) (fd : ℤ) : State :=
  { s with fds := Function.update s.fds fd (some ⟨file, cached, s.serial⟩), serial := s.serial + 1 }

def fdCacheHandleInternalDestroy (s : State) (ptr : ℕ) : State :=
  match s.handles ptr with
  | none => s
  | some internalFd =>
    let s := if internalFd.fd ≥ 0 then s.close internalFd.fd else s
    { s with handles := Function.update s.handles ptr none }

def setRefCount (s : State) (ptr : ℕ) (h : FdHandleInternal) (refCount : UInt64) : State :=
  { s with handles := Function.update s.handles ptr (some { h with refCount }) }

def insert (s : State) (fk : FileKey) (fd : ℤ) (ptr : ℕ) : State :=
  { s.open fk true fd with
    opens := s.opens ++ [⟨fk, true, s.serial⟩]
    cache := Function.update s.cache fk (some ptr)
    handles := Function.update s.handles ptr (some ⟨fd, 0 + 1, fk⟩) }

/-- `statbuf` is what `stat()` gives, `fd` what `open()` would return, and `ptr` the block which
`g_new0()` would allocate. -/
def getHandle (s : State) (statbuf : Option FileKey) (fd : ℤ) (ptr : ℕ) : Option ℕ × State :=
  match statbuf with
  | none => (none, s)
  | some fk =>
    match s.cache fk with
    | some ptr => (some ptr, (s.handles ptr).elim s fun h => s.setRefCount ptr h (h.refCount + 1))
    | none =>
      if fd < 0 ∨ (s.fds fd).isSome then (none, s) else (some ptr, s.insert fk fd ptr)

inductive EnvOp where
  | «open» (file : FileKey) (fd : ℤ)
  | close (fd : ℤ)

def env (s : State) : EnvOp → State
  | .open file fd => if fd < 0 ∨ (s.fds fd).isSome then s else s.open file false fd
  | .close fd =>
    if (s.fds fd).any (!·.cached) then { s with fds := Function.update s.fds fd none } else s

/-- `none` is a failed assertion. Other threads may do `between` after the first `close()` call. -/
def putHandle (s : State) (handle : Option ℕ) (between : List EnvOp) : Option State :=
  match handle with
  | none => some s
  | some ptr => do
    let fdInternal ← s.handles ptr
    if fdInternal.refCount = 0 then none
    else if fdInternal.refCount > 1 then
      some (s.setRefCount ptr fdInternal (fdInternal.refCount - 1))
    else
      let s := between.foldl env (s.close fdInternal.fd)
      if s.cache fdInternal.key = none then none
      else
        -- the value destruction function of the hash table
        some (fdCacheHandleInternalDestroy
          { s with cache := Function.update s.cache fdInternal.key none } ptr)

end State

/-- The handles which are held, with their multiplicity -/
inductive Step : State × List ℕ → State × List ℕ → Prop
  | env (s : State) (held : List ℕ) (op : State.EnvOp) : Step (s, held) (s.env op, held)
  | get (s : State) (held : List ℕ) {statbuf : Option FileKey} {fd : ℤ} {ptr : ℕ}
      (hptr : s.handles ptr = none)
      (hcount : ∀ ptr, held.count ptr + 1 < 2 ^ 64) :
      Step (s, held) ((s.getHandle statbuf fd ptr).2, (s.getHandle statbuf fd ptr).1.toList ++ held)
  | put {s s' : State} {held : List ℕ} {handle : Option ℕ} {between : List State.EnvOp}
      (hheld : ∀ ptr ∈ handle, ptr ∈ held) (h : s.putHandle handle between = some s') :
      Step (s, held) (s', handle.elim held held.erase)

inductive Run : State → List ℕ → Prop
  | init : Run {} []
  | step {s s' : State} {held held' : List ℕ} (hrun : Run s held) (h : Step (s, held) (s', held')) :
      Run s' held'

/-! ## Properties -/

def State.Designates (s : State) (ptr : ℕ) (o : Opened) : Prop :=
  ∃ h, s.handles ptr = some h ∧ s.fds h.fd = some o ∧ o.file = h.key ∧ o ∈ s.opens

structure Shares (s : State) (held : List ℕ) : Prop where
  isOpen : ∀ ptr ∈ held, ∃ o, s.Designates ptr o
  stays : ∀ {s' : State} {held' : List ℕ}, Step (s, held) (s', held') →
    ∀ ptr ∈ held, ptr ∈ held' → ∀ o, s.Designates ptr o → s'.Designates ptr o
  fd_eq_iff : ∀ ptr ∈ held, ∀ ptr' ∈ held, ∀ h h', s.handles ptr = some h → s.handles ptr' = some h' →
    (h.fd = h'.fd ↔ h.key = h'.key)
  get : ∀ {fk : FileKey} {fd : ℤ} {newPtr ptr : ℕ} {s' : State}, s.handles newPtr = none →
    s.getHandle (some fk) fd newPtr = (some ptr, s') →
    (∃ o, s'.Designates ptr o ∧ o.file = fk) ∧
      ∀ ptr' ∈ held, ∀ h, s.handles ptr' = some h → h.key = fk → ptr = ptr'
  put : ∀ ptr ∈ held, ∀ between, (s.putHandle (some ptr) between).isSome
  empty : held = [] → ∀ fk, s.cache fk = none

def ClosedOnce (s : State) (held : List ℕ) : Prop :=
  s.closes.Nodup ∧
    ∀ closed, closed ∈ s.closes ↔
      ∃ o ∈ s.opens, closed = some o ∧ ∀ ptr ∈ held, ¬s.Designates ptr o

/-! ## Invariant -/

structure State.Keeps (s s' : State) : Prop where
  cache : s'.cache = s.cache
  handles : s'.handles = s.handles
  opens : s'.opens = s.opens
  closes : s'.closes = s.closes
  serial : s.serial ≤ s'.serial
  fds : ∀ fd o, o.cached = true → (s'.fds fd = some o ↔ s.fds fd = some o)

def State.ClosedTwice (s : State) : Prop :=
  (∃ o ∈ s.opens, ∀ ptr, ¬s.Designates ptr o) ∧ ∃ closed ∈ s.closes, ∀ o ∈ closed, o.cached = false

structure Inv (s : State) (held : List ℕ) : Prop where
  handle : ∀ {ptr h}, s.handles ptr = some h →
    0 ≤ h.fd ∧ s.cache h.key = some ptr ∧ h.refCount ≠ 0 ∧ h.refCount.toNat = held.count ptr ∧
      ∃ o, s.Designates ptr o
  cached : ∀ {fk ptr}, s.cache fk = some ptr → ∃ h, s.handles ptr = some h ∧ h.key = fk
  allocated : ∀ {ptr}, ptr ∈ held → ∃ h, s.handles ptr = some h
  opens : ∀ {o}, o ∈ s.opens → o.cached = true ∧ o.serial < s.serial
  closes : (s.closes = [] ∧ ∀ o ∈ s.opens, ∃ ptr ∈ held, s.Designates ptr o) ∨ s.ClosedTwice

section
variable {s s' : State} {held held' : List ℕ} {ptr ptr' : ℕ} {o : Opened} {h h' : FdHandleInternal}
  {fk : FileKey} {fd : ℤ}

theorem State.Designates.of_handle (hdes : s.Designates ptr o) (hh : s.handles ptr = some h) :
    s.fds h.fd = some o ∧ o.file = h.key ∧ o ∈ s.opens := by
  obtain ⟨h', hh', hopened⟩ := hdes
  rw [hh, Option.some.injEq] at hh'
  exact hh' ▸ hopened

theorem Inv.ptr_unique (hinv : Inv s held) (hdes : s.Designates ptr o)
    (hh' : s.handles ptr' = some h') (heq : s.fds h'.fd = some o ∨ o.file = h'.key) : ptr = ptr' := by
  obtain ⟨h, hh, -, hfile, -⟩ := hdes
  obtain ⟨-, hkey, -⟩ := hinv.handle hh
  obtain ⟨-, hkey', -, -, o', hdes'⟩ := hinv.handle hh'
  obtain ⟨hfd', hfile', -⟩ := hdes'.of_handle hh'
  have hsame : h.key = h'.key := by
    rcases heq with hfd | hfile₂
    · rw [hfd', Option.some.injEq] at hfd
      rw [← hfile, ← hfd, hfile']
    · rw [← hfile, hfile₂]
  rw [hsame, hkey', Option.some.injEq] at hkey
  exact hkey.symm

/-! ### Other code -/

theorem State.Keeps.refl (s : State) : s.Keeps s := ⟨rfl, rfl, rfl, rfl, le_rfl, fun _ _ _ => Iff.rfl⟩

theorem State.Keeps.trans {s'' : State} (h : s.Keeps s') (h' : s'.Keeps s'') : s.Keeps s'' where
  cache := h'.cache.trans h.cache
  handles := h'.handles.trans h.handles
  opens := h'.opens.trans h.opens
  closes := h'.closes.trans h.closes
  serial := h.serial.trans h'.serial
  fds fd o ho := (h'.fds fd o ho).trans (h.fds fd o ho)

theorem State.env_keeps (s : State) (op : EnvOp) : s.Keeps (s.env op) := by
  cases op with
  | «open» file fd =>
    by_cases hfd : fd < 0 ∨ (s.fds fd).isSome
    · simp only [env, if_pos hfd]
      exact .refl s
    · simp only [env, if_neg hfd]
      refine ⟨rfl, rfl, rfl, rfl, Nat.le_succ _, fun fd' o ho => ?_⟩
      rcases eq_or_ne fd' fd with rfl | hne
      · have hnone : s.fds fd' = none := by simpa using (not_or.mp hfd).2
        simp only [State.open, Function.update_self, hnone, Option.some.injEq, reduceCtorEq, iff_false]
        rintro rfl
        cases ho
      · simp [State.open, Function.update_of_ne hne]
  | close fd =>
    by_cases hfd : (s.fds fd).any (!·.cached)
    · simp only [env, if_pos hfd]
      refine ⟨rfl, rfl, rfl, rfl, le_rfl, fun fd' o ho => ?_⟩
      rcases eq_or_ne fd' fd with rfl | hne
      · simp only [Function.update_self, reduceCtorEq, false_iff]
        intro hsome
        simp [hsome, ho] at hfd
      · simp [Function.update_of_ne hne]
    · simp only [env, if_neg hfd]
      exact .refl s

theorem State.foldl_env_keeps (s : State) (ops : List EnvOp) : s.Keeps (ops.foldl env s) := by
  induction ops generalizing s with
  | nil => exact .refl s
  | cons op ops ih => exact (s.env_keeps op).trans (ih _)

theorem Inv.designates_env (hinv : Inv s held) (op : State.EnvOp) :
    (s.env op).Designates ptr o ↔ s.Designates ptr o := by
  have hkeeps := s.env_keeps op
  unfold State.Designates
  rw [hkeeps.handles, hkeeps.opens]
  refine exists_congr fun h => and_congr_right fun _ => ?_
  constructor
  · rintro ⟨hfd, hfile, hmem⟩
    exact ⟨(hkeeps.fds _ _ (hinv.opens hmem).1).mp hfd, hfile, hmem⟩
  · rintro ⟨hfd, hfile, hmem⟩
    exact ⟨(hkeeps.fds _ _ (hinv.opens hmem).1).mpr hfd, hfile, hmem⟩

theorem Inv.env (hinv : Inv s held) (op : State.EnvOp) : Inv (s.env op) held := by
  have hkeeps := s.env_keeps op
  refine ⟨fun {ptr h} hh => ?_, fun {fk ptr} h => ?_, fun {ptr} h => ?_, fun {o} ho => ?_, ?_⟩
  · simp only [hkeeps.cache, hinv.designates_env op]
    exact hinv.handle (hkeeps.handles ▸ hh)
  · rw [hkeeps.handles]
    exact hinv.cached (hkeeps.cache ▸ h)
  · rw [hkeeps.handles]
    exact hinv.allocated h
  · obtain ⟨hcached, hserial⟩ := hinv.opens (hkeeps.opens ▸ ho)
    exact ⟨hcached, hserial.trans_le hkeeps.serial⟩
  · simp only [State.ClosedTwice, hkeeps.closes, hkeeps.opens, hinv.designates_env op]
    exact hinv.closes

/-! ### Getting a handle -/

theorem State.getHandle_held (hcache : s.cache fk = some ptr) (hh : s.handles ptr = some h) (fd : ℤ)
    (newPtr : ℕ) :
    s.getHandle (some fk) fd newPtr = (some ptr, s.setRefCount ptr h (h.refCount + 1)) := by
  simp [getHandle, hcache, hh]

theorem State.getHandle_fails (hcache : s.cache fk = none) (hfd : fd < 0 ∨ (s.fds fd).isSome)
    (newPtr : ℕ) : s.getHandle (some fk) fd newPtr = (none, s) := by
  simp only [getHandle, hcache, if_pos hfd]

theorem State.getHandle_opens (hcache : s.cache fk = none) (hfd : ¬(fd < 0 ∨ (s.fds fd).isSome))
    (newPtr : ℕ) :
    s.getHandle (some fk) fd newPtr = (some newPtr, s.insert fk fd newPtr) := by
  simp only [getHandle, hcache, if_neg hfd]

theorem State.designates_setRefCount (hh : s.handles ptr = some h) (refCount : UInt64) :
    (s.setRefCount ptr h refCount).Designates ptr' o ↔ s.Designates ptr' o := by
  rcases eq_or_ne ptr' ptr with rfl | hne
  · simp [State.Designates, State.setRefCount, hh]
  · simp [State.Designates, State.setRefCount, Function.update_of_ne hne]

theorem Inv.setRefCount (hinv : Inv s held) (hh : s.handles ptr = some h) {refCount : UInt64}
    (hzero : refCount ≠ 0) (hcount : refCount.toNat = held'.count ptr)
    (hothers : ∀ ptr' ≠ ptr, held'.count ptr' = held.count ptr') :
    Inv (s.setRefCount ptr h refCount) held' := by
  have hmem {ptr' : ℕ} (hmem : ptr' ∈ held) : ptr' ∈ held' := by
    rw [← List.count_pos_iff]
    rcases eq_or_ne ptr' ptr with rfl | hne
    · rw [← hcount]
      exact Nat.pos_of_ne_zero fun h0 => hzero (UInt64.toNat_inj.mp h0)
    · rwa [hothers ptr' hne, List.count_pos_iff]
  have hhandle {ptr' : ℕ} {h' : FdHandleInternal} (hh' : s.handles ptr' = some h') :
      ∃ h'', (s.setRefCount ptr h refCount).handles ptr' = some h'' ∧ h''.key = h'.key := by
    rcases eq_or_ne ptr' ptr with rfl | hne
    · obtain rfl := Option.some.inj (hh.symm.trans hh')
      exact ⟨_, Function.update_self .., rfl⟩
    · exact ⟨h', (Function.update_of_ne hne ..).trans hh', rfl⟩
  refine ⟨fun {ptr' h'} hh' => ?_, fun {fk' ptr'} hcache => ?_, fun {ptr'} hptr' => ?_, hinv.opens, ?_⟩
  · simp only [State.designates_setRefCount hh]
    rcases eq_or_ne ptr' ptr with rfl | hne
    · simp only [State.setRefCount, Function.update_self, Option.some.injEq] at hh'
      subst hh'
      obtain ⟨hfd, hkey, -, -, hdes⟩ := hinv.handle hh
      exact ⟨hfd, hkey, hzero, hcount, hdes⟩
    · rw [hothers ptr' hne]
      exact hinv.handle ((Function.update_of_ne hne ..).symm.trans hh')
  · obtain ⟨h', hh', hkey'⟩ := hinv.cached hcache
    obtain ⟨h'', hh'', hkey''⟩ := hhandle hh'
    exact ⟨h'', hh'', hkey''.trans hkey'⟩
  · rcases eq_or_ne ptr' ptr with rfl | hne
    · exact ⟨_, Function.update_self ..⟩
    · rw [← List.count_pos_iff, hothers ptr' hne, List.count_pos_iff] at hptr'
      obtain ⟨h', hh'⟩ := hinv.allocated hptr'
      exact ⟨h', (Function.update_of_ne hne ..).trans hh'⟩
  · simp only [State.ClosedTwice, State.designates_setRefCount hh]
    refine hinv.closes.imp_left (And.imp_right fun hall o ho => ?_)
    obtain ⟨ptr', hptr', hdes⟩ := hall o ho
    exact ⟨ptr', hmem hptr', hdes⟩

theorem Inv.designates_insert (hinv : Inv s held) (hfd : ¬(fd < 0 ∨ (s.fds fd).isSome))
    (hptr : s.handles ptr = none) (ho : o ∈ s.opens) :
    (s.insert fk fd ptr).Designates ptr' o ↔ s.Designates ptr' o := by
  have hfree : s.fds fd = none := by simpa using (not_or.mp hfd).2
  constructor
  · rintro ⟨h', hh', hfd', hfile, -⟩
    simp only [State.insert, State.open] at hh' hfd'
    have hfdNe : h'.fd ≠ fd := fun heq => by
      -- the new descriptor has a new serial number
      rw [heq, Function.update_self, Option.some.injEq] at hfd'
      exact absurd (hinv.opens ho).2 (by rw [← hfd']; exact lt_irrefl _)
    rcases eq_or_ne ptr' ptr with rfl | hne
    · rw [Function.update_self, Option.some.injEq] at hh'
      exact absurd (congrArg FdHandleInternal.fd hh').symm hfdNe
    · rw [Function.update_of_ne hne] at hh'
      rw [Function.update_of_ne hfdNe] at hfd'
      exact ⟨h', hh', hfd', hfile, ho⟩
  · rintro ⟨h', hh', hfd', hfile, -⟩
    have hne : ptr' ≠ ptr := by
      rintro rfl
      simp [hptr] at hh'
    have hfdNe : h'.fd ≠ fd := by
      rintro rfl
      simp [hfree] at hfd'
    exact ⟨h', (Function.update_of_ne hne ..).trans hh', (Function.update_of_ne hfdNe ..).trans hfd',
      hfile, List.mem_append_left _ ho⟩

theorem State.insert_designates (s : State) (fk : FileKey) (fd : ℤ) (ptr : ℕ) :
    (s.insert fk fd ptr).Designates ptr ⟨fk, true, s.serial⟩ :=
  ⟨_, Function.update_self .., Function.update_self .., rfl,
    List.mem_append_right _ (List.mem_singleton_self _)⟩

theorem Inv.insert (hinv : Inv s held) (hcache : s.cache fk = none)
    (hfd : ¬(fd < 0 ∨ (s.fds fd).isSome)) (hptr : s.handles ptr = none) :
    Inv (s.insert fk fd ptr) (ptr :: held) := by
  have hdes {ptr' : ℕ} {o : Opened} (ho : o ∈ s.opens) :
      (s.insert fk fd ptr).Designates ptr' o ↔ s.Designates ptr' o :=
    hinv.designates_insert hfd hptr ho
  have hptrNe {ptr' : ℕ} {h' : FdHandleInternal} (hh' : s.handles ptr' = some h') : ptr' ≠ ptr := by
    rintro rfl
    simp [hptr] at hh'
  have hnotHeld : ptr ∉ held := fun hmem => by
    obtain ⟨h', hh'⟩ := hinv.allocated hmem
    exact hptrNe hh' rfl
  refine ⟨fun {ptr' h'} hh' => ?_, fun {fk' ptr'} hcache' => ?_, fun {ptr'} hmem => ?_,
    fun {o} ho => ?_, ?_⟩
  · rcases eq_or_ne ptr' ptr with rfl | hne
    · simp only [State.insert, Function.update_self, Option.some.injEq] at hh'
      subst hh'
      refine ⟨not_lt.mp (not_or.mp hfd).1, Function.update_self .., by simp, ?_, _,
        s.insert_designates fk fd ptr'⟩
      simp [List.count_eq_zero_of_not_mem hnotHeld]
    · simp only [State.insert, Function.update_of_ne hne] at hh'
      obtain ⟨h0, hkey, href, hcount, o, ho⟩ := hinv.handle hh'
      have hkeyNe : h'.key ≠ fk := by
        rintro rfl
        simp [hcache] at hkey
      exact ⟨h0, (Function.update_of_ne hkeyNe ..).trans hkey, href,
        hcount.trans (List.count_cons_of_ne hne.symm).symm, o,
        (hdes (ho.of_handle hh').2.2).mpr ho⟩
  · rcases eq_or_ne fk' fk with rfl | hne
    · simp only [State.insert, Function.update_self, Option.some.injEq] at hcache'
      subst hcache'
      exact ⟨_, Function.update_self .., rfl⟩
    · simp only [State.insert, Function.update_of_ne hne] at hcache'
      obtain ⟨h', hh', hkey⟩ := hinv.cached hcache'
      exact ⟨h', (Function.update_of_ne (hptrNe hh') ..).trans hh', hkey⟩
  · rcases List.mem_cons.mp hmem with rfl | hmem
    · exact ⟨_, Function.update_self ..⟩
    · obtain ⟨h', hh'⟩ := hinv.allocated hmem
      exact ⟨h', (Function.update_of_ne (hptrNe hh') ..).trans hh'⟩
  · rcases List.mem_append.mp ho with ho | ho
    · exact ⟨(hinv.opens ho).1, (hinv.opens ho).2.trans (Nat.lt_succ_self _)⟩
    · obtain rfl := List.mem_singleton.mp ho
      exact ⟨rfl, Nat.lt_succ_self _⟩
  · refine hinv.closes.imp (And.imp_right fun hall o ho => ?_) (And.imp_left ?_)
    · rcases List.mem_append.mp ho with ho | ho
      · obtain ⟨ptr', hptr', ho'⟩ := hall o ho
        exact ⟨ptr', List.mem_cons_of_mem _ hptr', (hdes ho).mpr ho'⟩
      · obtain rfl := List.mem_singleton.mp ho
        exact ⟨ptr, List.mem_cons_self, s.insert_designates fk fd ptr⟩
    · rintro ⟨o, ho, hnot⟩
      exact ⟨o, List.mem_append_left _ ho, fun ptr' h => hnot ptr' ((hdes ho).mp h)⟩

/-! ### Putting a handle -/

def State.closeTwice (s : State) (ptr : ℕ) (h : FdHandleInternal) (between : List EnvOp) : State :=
  { (between.foldl env (s.close h.fd)).close h.fd with
    cache := Function.update s.cache h.key none
    handles := Function.update s.handles ptr none }

theorem Inv.putHandle_cases (hinv : Inv s held) (hh : s.handles ptr = some h)
    (between : List State.EnvOp) :
    (h.refCount > 1 ∧
      s.putHandle (some ptr) between = some (s.setRefCount ptr h (h.refCount - 1))) ∨
    h.refCount = 1 ∧ s.putHandle (some ptr) between = some (s.closeTwice ptr h between) := by
  obtain ⟨hfd, hkey, hzero, -⟩ := hinv.handle hh
  have hkeeps := (s.close h.fd).foldl_env_keeps between
  have hbind {f : FdHandleInternal → Option State} : (s.handles ptr >>= f) = f h := by rw [hh]; rfl
  by_cases href : h.refCount > 1
  · refine .inl ⟨href, ?_⟩
    simp only [State.putHandle, hbind]
    rw [if_neg hzero, if_pos href]
  · refine .inr ⟨?_, ?_⟩
    · have hone : h.refCount.toNat ≤ 1 := by simpa [UInt64.lt_iff_toNat_lt] using href
      have hpos : h.refCount.toNat ≠ 0 := fun h0 => hzero (UInt64.toNat_inj.mp h0)
      exact UInt64.toNat_inj.mp (le_antisymm hone (Nat.pos_of_ne_zero hpos))
    · simp only [State.putHandle, hbind]
      rw [if_neg hzero, if_neg href, if_neg (by rw [hkeeps.cache]; simp [State.close, hkey])]
      simp only [State.fdCacheHandleInternalDestroy, hkeeps.handles, hkeeps.cache]
      simp only [State.closeTwice, State.close, hh, if_pos hfd]

theorem Inv.designates_closeTwice (hinv : Inv s held) (hh : s.handles ptr = some h)
    (between : List State.EnvOp) :
    (s.closeTwice ptr h between).Designates ptr' o ↔ ptr' ≠ ptr ∧ s.Designates ptr' o := by
  have hkeeps := (s.close h.fd).foldl_env_keeps between
  rcases eq_or_ne ptr' ptr with rfl | hne
  · simp [State.Designates, State.closeTwice]
  · simp only [State.Designates, State.closeTwice, Function.update_of_ne hne, ne_eq, hne,
      not_false_eq_true, true_and]
    refine exists_congr fun h' => and_congr_right fun hh' => ?_
    -- two handles of different files don't have the same descriptor
    have hfdNe : h'.fd ≠ h.fd := fun heq => by
      obtain ⟨-, -, -, -, o', ho'⟩ := hinv.handle hh'
      exact hne (hinv.ptr_unique ho' hh (.inl (heq ▸ (ho'.of_handle hh').1)))
    have hopens : (between.foldl State.env (s.close h.fd)).opens = s.opens := hkeeps.opens
    simp only [State.close, Function.update_of_ne hfdNe] at hkeeps ⊢
    constructor
    · rintro ⟨hfd, hfile, hmem⟩
      have hmem' : o ∈ s.opens := hopens ▸ hmem
      have hkept := (hkeeps.fds _ _ (hinv.opens hmem').1).mp hfd
      exact ⟨(Function.update_of_ne hfdNe ..).symm.trans hkept, hfile, hmem'⟩
    · rintro ⟨hfd, hfile, hmem⟩
      refine ⟨(hkeeps.fds _ _ (hinv.opens hmem).1).mpr ?_, hfile, hopens.symm ▸ hmem⟩
      exact (Function.update_of_ne hfdNe ..).trans hfd

theorem Inv.closeTwice (hinv : Inv s held) (hh : s.handles ptr = some h) (href : h.refCount = 1)
    (between : List State.EnvOp) : Inv (s.closeTwice ptr h between) (held.erase ptr) := by
  obtain ⟨-, hkey, -, hcount, o, ho⟩ := hinv.handle hh
  have hkeeps := (s.close h.fd).foldl_env_keeps between
  have hdes {ptr' : ℕ} {o : Opened} : (s.closeTwice ptr h between).Designates ptr' o ↔
      ptr' ≠ ptr ∧ s.Designates ptr' o := hinv.designates_closeTwice hh between
  have hnotHeld : ptr ∉ held.erase ptr := by
    rw [href, UInt64.toNat_one] at hcount
    exact List.count_eq_zero.mp (by rw [List.count_erase_self, ← hcount])
  refine ⟨fun {ptr' h'} hh' => ?_, fun {fk' ptr'} hcache => ?_, fun {ptr'} hmem => ?_,
    fun {o'} ho' => ?_,
    .inr ⟨⟨o, ?_, fun ptr' h' => ?_⟩, _, List.mem_append_right _ (List.mem_singleton_self _), ?_⟩⟩
  · rcases eq_or_ne ptr' ptr with rfl | hne
    · simp [State.closeTwice] at hh'
    · simp only [State.closeTwice, Function.update_of_ne hne] at hh'
      obtain ⟨h0, hkey', href', hcount', o', ho'⟩ := hinv.handle hh'
      have hkeyNe : h'.key ≠ h.key := fun heq =>
        hne (hinv.ptr_unique ho' hh (.inr ((ho'.of_handle hh').2.1.trans heq)))
      exact ⟨h0, (Function.update_of_ne hkeyNe ..).trans hkey', href',
        hcount'.trans (List.count_erase_of_ne hne).symm, o', hdes.mpr ⟨hne, ho'⟩⟩
  · rcases eq_or_ne fk' h.key with rfl | hne
    · simp [State.closeTwice] at hcache
    · simp only [State.closeTwice, Function.update_of_ne hne] at hcache
      obtain ⟨h'', hh'', hkey''⟩ := hinv.cached hcache
      refine ⟨h'', (Function.update_of_ne ?_ ..).trans hh'', hkey''⟩
      rintro rfl
      rw [hh, Option.some.injEq] at hh''
      exact hne (hkey''.symm.trans (congrArg _ hh''.symm))
  · have hne : ptr' ≠ ptr := fun heq => hnotHeld (heq ▸ hmem)
    obtain ⟨h', hh'⟩ := hinv.allocated (List.mem_of_mem_erase hmem)
    exact ⟨h', (Function.update_of_ne hne ..).trans hh'⟩
  · have hopens : (s.closeTwice ptr h between).opens = s.opens := hkeeps.opens
    obtain ⟨hcached', hserial⟩ := hinv.opens (hopens ▸ ho')
    exact ⟨hcached', hserial.trans_le hkeeps.serial⟩
  · have hopens : (s.closeTwice ptr h between).opens = s.opens := hkeeps.opens
    exact hopens ▸ (ho.of_handle hh).2.2
  · obtain ⟨hne, hdes'⟩ := hdes.mp h'
    exact hne (hinv.ptr_unique hdes' hh (.inl (ho.of_handle hh).1))
  · intro o' ho'
    by_contra hcached'
    have hkept := (hkeeps.fds h.fd o' (by simpa using hcached')).mp ho'
    simp [State.close] at hkept

/-! ## Result -/

theorem Inv.step (hinv : Inv s held) (hstep : Step (s, held) (s', held')) :
    Inv s' held' ∧ ∀ ptr ∈ held', ∀ o, s.Designates ptr o → s'.Designates ptr o := by
  cases hstep with
  | env _ _ op => exact ⟨hinv.env op, fun _ _ _ => (hinv.designates_env op).mpr⟩
  | @get _ _ statbuf fd ptr hptr hcount =>
    cases statbuf with
    | none => exact ⟨hinv, fun _ _ _ => id⟩
    | some fk =>
      cases hcache : s.cache fk with
      | some ptr' =>
        obtain ⟨h', hh', -⟩ := hinv.cached hcache
        obtain ⟨-, -, -, href, -⟩ := hinv.handle hh'
        have hnext : (h'.refCount + 1).toNat = held.count ptr' + 1 := by
          rw [UInt64.toNat_add, href]
          exact Nat.mod_eq_of_lt (hcount ptr')
        rw [State.getHandle_held hcache hh']
        refine ⟨hinv.setRefCount hh' (fun hzero => ?_) (hnext.trans List.count_cons_self.symm)
          fun ptr hne => List.count_cons_of_ne hne.symm,
          fun _ _ _ => (State.designates_setRefCount hh' _).mpr⟩
        rw [hzero, UInt64.toNat_zero] at hnext
        omega
      | none =>
        by_cases hfd : fd < 0 ∨ (s.fds fd).isSome
        · rw [State.getHandle_fails hcache hfd]
          exact ⟨hinv, fun _ _ _ => id⟩
        · rw [State.getHandle_opens hcache hfd]
          refine ⟨hinv.insert hcache hfd hptr, fun ptr' _ o ho => ?_⟩
          obtain ⟨h', hh', hopened⟩ := ho
          exact (hinv.designates_insert hfd hptr hopened.2.2).mpr ⟨h', hh', hopened⟩
  | @put _ _ _ handle between hheld h =>
    cases handle with
    | none =>
      cases h
      exact ⟨hinv, fun _ _ _ => id⟩
    | some ptr =>
      obtain ⟨h', hh'⟩ := hinv.allocated (hheld ptr rfl)
      rcases hinv.putHandle_cases hh' between with ⟨href, hput⟩ | ⟨href, hput⟩
      · obtain rfl := Option.some.inj (hput.symm.trans h)
        obtain ⟨-, -, -, hcount, -⟩ := hinv.handle hh'
        have hone : 1 < h'.refCount.toNat := by simpa [UInt64.lt_iff_toNat_lt] using href
        have hprev : (h'.refCount - 1).toNat = held.count ptr - 1 := by
          rw [UInt64.toNat_sub_of_le _ _ (UInt64.le_of_lt href), hcount, UInt64.toNat_one]
        refine ⟨hinv.setRefCount hh' (fun hzero => ?_) (hprev.trans List.count_erase_self.symm)
          fun ptr' hne => List.count_erase_of_ne hne,
          fun _ _ _ => (State.designates_setRefCount hh' _).mpr⟩
        rw [hzero, UInt64.toNat_zero] at hprev
        omega
      · obtain rfl := Option.some.inj (hput.symm.trans h)
        have hinv' := hinv.closeTwice hh' href between
        refine ⟨hinv', fun ptr' hheld' o ho => (hinv.designates_closeTwice hh' between).mpr ⟨?_, ho⟩⟩
        rintro rfl
        obtain ⟨h'', hh''⟩ := hinv'.allocated hheld'
        simp [State.closeTwice] at hh''

theorem Run.inv (hrun : Run s held) : Inv s held := by
  induction hrun with
  | init => exact ⟨nofun, nofun, nofun, nofun, .inl ⟨rfl, nofun⟩⟩
  | step _ h ih => exact (ih.step h).1

theorem Inv.getHandle_some (hinv : Inv s held) {newPtr : ℕ}
    (hget : s.getHandle (some fk) fd newPtr = (some ptr, s')) :
    (∃ o, s'.Designates ptr o ∧ o.file = fk) ∧
      ∀ ptr' ∈ held, ∀ h, s.handles ptr' = some h → h.key = fk → ptr = ptr' := by
  cases hcache : s.cache fk with
  | some ptr' =>
    obtain ⟨h', hh', hkey⟩ := hinv.cached hcache
    rw [State.getHandle_held hcache hh'] at hget
    cases hget
    obtain ⟨-, -, -, -, o, ho⟩ := hinv.handle hh'
    have hfile := (ho.of_handle hh').2.1.trans hkey
    exact ⟨⟨o, (State.designates_setRefCount hh' _).mpr ho, hfile⟩, fun ptr₁ _ h₁ hh₁ hkey₁ =>
      hinv.ptr_unique ho hh₁ (.inr (hfile.trans hkey₁.symm))⟩
  | none =>
    by_cases hfd : fd < 0 ∨ (s.fds fd).isSome
    · rw [State.getHandle_fails hcache hfd] at hget
      cases hget
    · rw [State.getHandle_opens hcache hfd] at hget
      cases hget
      refine ⟨⟨_, s.insert_designates fk fd ptr, rfl⟩, fun ptr₁ _ h₁ hh₁ hkey₁ => ?_⟩
      obtain ⟨-, hcache₁, -⟩ := hinv.handle hh₁
      rw [hkey₁, hcache] at hcache₁
      cases hcache₁

theorem Inv.shares (hinv : Inv s held) : Shares s held where
  isOpen ptr hptr := by
    obtain ⟨h, hh⟩ := hinv.allocated hptr
    exact (hinv.handle hh).2.2.2.2
  stays hstep ptr _ hheld' o := (hinv.step hstep).2 ptr hheld' o
  fd_eq_iff ptr _ ptr' _ h h' hh hh' := by
    obtain ⟨-, -, -, -, o, ho⟩ := hinv.handle hh
    obtain ⟨hfd, hfile, -⟩ := ho.of_handle hh
    have hptr (heq : s.fds h'.fd = some o ∨ o.file = h'.key) : h = h' := by
      obtain rfl := hinv.ptr_unique ho hh' heq
      exact Option.some.inj (hh.symm.trans hh')
    exact ⟨fun heq => by rw [hptr (.inl (heq ▸ hfd))], fun heq => by rw [hptr (.inr (hfile.trans heq))]⟩
  get _ hget := hinv.getHandle_some hget
  put ptr hptr between := by
    obtain ⟨h, hh⟩ := hinv.allocated hptr
    rcases hinv.putHandle_cases hh between with ⟨-, hput⟩ | ⟨-, hput⟩ <;> rw [hput] <;> rfl
  empty hheld fk := by
    subst hheld
    cases hcache : s.cache fk with
    | none => rfl
    | some ptr =>
      obtain ⟨h, hh, -⟩ := hinv.cached hcache
      obtain ⟨-, -, hzero, hcount, -⟩ := hinv.handle hh
      exact absurd (UInt64.toNat_inj.mp hcount) hzero

/-- The handles share descriptors as expected, but these are closed once only as long as none is
closed. -/
theorem Run.shares_closedOnce_iff (hrun : Run s held) :
    Shares s held ∧
      (ClosedOnce s held ↔ ∀ o ∈ s.opens, ∃ ptr ∈ held, s.Designates ptr o) := by
  have hinv := hrun.inv
  refine ⟨hinv.shares, fun honce => ?_, fun hall => ?_⟩
  · rcases hinv.closes with ⟨-, hall⟩ | ⟨-, closed, hmem, hnot⟩
    · exact hall
    · obtain ⟨o, ho, rfl, -⟩ := (honce.2 closed).mp hmem
      exact absurd (hinv.opens ho).1 (by simp [hnot o rfl])
  · rcases hinv.closes with ⟨hnil, -⟩ | ⟨⟨o, ho, hnot⟩, -⟩
    · rw [ClosedOnce, hnil]
      refine ⟨List.nodup_nil, fun closed => iff_of_false List.not_mem_nil ?_⟩
      rintro ⟨o, ho, -, hnot⟩
      obtain ⟨ptr, hptr, hdes⟩ := hall o ho
      exact hnot ptr hptr hdes
    · obtain ⟨ptr, -, hdes⟩ := hall o ho
      exact absurd hdes (hnot ptr)

end

/-! ### A file -/

def oneHandle : State := (State.getHandle {} (some ⟨1, 2⟩) 3 0).2

theorem run_oneHandle : Run oneHandle [0] :=
  .step .init (.get {} [] rfl (by simp))

def gotTwice : State := (oneHandle.getHandle (some ⟨1, 2⟩) 4 1).2

def gotOther : State := (gotTwice.getHandle (some ⟨1, 5⟩) 4 1).2

/-- Two files; the first one is got twice, and put once. -/
def twoFiles : State := (gotOther.putHandle (some 0) []).getD gotOther

theorem run_twoFiles : Run twoFiles [1, 0] := by
  have hcount (held : List ℕ) (hheld : held.length ≤ 2) (ptr : ℕ) : held.count ptr + 1 < 2 ^ 64 := by
    have := held.count_le_length (a := ptr)
    omega
  have hget : Step (oneHandle, [0]) (gotTwice, [0, 0]) := .get _ _ rfl (hcount _ (by decide))
  have hother : Step (gotTwice, [0, 0]) (gotOther, [1, 0, 0]) := .get _ _ rfl (hcount _ (by decide))
  have hheld : ∀ ptr ∈ some 0, ptr ∈ [1, 0, 0] := by simp
  have hput : gotOther.putHandle (some 0) [] = some twoFiles := rfl
  exact .step (.step (.step run_oneHandle hget) hother) (.put hheld hput)

theorem Run.shares_closedOnce_iff_twoFiles :
    Shares twoFiles [1, 0] ∧ ClosedOnce twoFiles [1, 0] := by
  obtain ⟨hshares, hiff⟩ := Run.shares_closedOnce_iff run_twoFiles
  have hopens : twoFiles.opens = [⟨⟨1, 2⟩, true, 0⟩, ⟨⟨1, 5⟩, true, 1⟩] := rfl
  refine ⟨hshares, hiff.mpr fun o ho => ?_⟩
  simp only [hopens, List.mem_cons, List.not_mem_nil, or_false] at ho
  rcases ho with rfl | rfl
  · exact ⟨0, by simp, _, rfl, rfl, rfl, by simp [hopens]⟩
  · exact ⟨1, by simp, _, rfl, rfl, rfl, by simp [hopens]⟩

/-- Between the two calls, another thread opens a file, of which the cache closes the descriptor. -/
theorem run_closes_other : ∃ s, Run s [] ∧ some ⟨⟨1, 7⟩, false, 1⟩ ∈ s.closes ∧ ¬ClosedOnce s [] := by
  obtain ⟨s, hs⟩ := Option.isSome_iff_exists.mp
    (run_oneHandle.inv.shares.put 0 List.mem_cons_self [.open ⟨1, 7⟩ 3])
  have hrun : Run s [] := .step run_oneHandle (.put (fun _ h => by simpa using h.symm) hs)
  have hlog : (oneHandle.putHandle (some 0) [.open ⟨1, 7⟩ 3]).map State.closes =
      some [some ⟨⟨1, 2⟩, true, 0⟩, some ⟨⟨1, 7⟩, false, 1⟩] := by decide
  rw [hs, Option.map_some, Option.some.injEq] at hlog
  have hmem : some ⟨⟨1, 7⟩, false, 1⟩ ∈ s.closes := by simp [hlog]
  refine ⟨s, hrun, hmem, fun honce => ?_⟩
  obtain ⟨o, ho, heq, -⟩ := (honce.2 _).mp hmem
  have hcached := (hrun.inv.opens ho).1
  rw [← Option.some.inj heq] at hcached
  cases hcached

end Babeltrace.FdCache
