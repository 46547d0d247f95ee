import Mathlib

/-!
# Address lookup of the debug information filter

The binaries which `flt.lttng-utils.debug-info` keeps for each process, the debug information of the
addresses which it already looked up, and the annotation of an event (`debug-info.cpp`). The ELF and
DWARF lookups are a function. A process without an entry is one of which both hash tables are empty.
-/
namespace Babeltrace.DebugInfo

/-! ## Model -/

structure BinInfo where
  path : String
  lowAddr : UInt64
  memsz : UInt64
  isPic : Bool
  deriving DecidableEq

namespace BinInfo

def highAddr (bin : BinInfo) : UInt64 := bin.lowAddr + bin.memsz

/-- `bin_info_has_address()` -/
def hasAddress (bin : BinInfo) (addr : UInt64) : Bool := addr ≥ bin.lowAddr && addr < bin.highAddr

def Contains (bin : BinInfo) (addr : UInt64) : Prop :=
  bin.lowAddr.toNat ≤ addr.toNat ∧ addr.toNat < bin.lowAddr.toNat + bin.memsz.toNat

end BinInfo

/-- `struct proc_debug_info_sources` -/
structure ProcDebugInfoSources (Info : Type) where
  baddrToBinInfo : UInt64 → Option BinInfo := fun _ => none
  ipToDebugInfoSrc : UInt64 → Option Info := fun _ => none

inductive Record
  | statedumpStart
  | statedumpBinInfo (baddr memsz : UInt64) (path : Option String) (isPic : UInt64)
  | libLoad (baddr memsz : UInt64) (path : Option String)
  | libUnload (baddr : UInt64)
  | other

/-- An event, with the process and the instruction pointer of its common context -/
structure Event where
  vpid : Int64
  ip : UInt64
  record : Record

section
variable {Info : Type}

namespace ProcDebugInfoSources

def handleBinInfoEvent (proc : ProcDebugInfoSources Info) (baddr memsz : UInt64)
    (path : Option String) (isPic : Bool) : ProcDebugInfoSources Info :=
  if memsz = 0 then proc
  else
    match path with
    | none => proc
    | some path =>
      if (proc.baddrToBinInfo baddr).isSome then proc
      else { proc with
        baddrToBinInfo :=
          Function.update proc.baddrToBinInfo baddr (some ⟨path, baddr, memsz, isPic⟩) }

/-- `handle_event_statedump()`; `none` is a failed assertion. -/
def handleEventStatedump (proc : ProcDebugInfoSources Info) :
    Record → Option (ProcDebugInfoSources Info)
  | .statedumpStart => some {}
  | .statedumpBinInfo baddr memsz path isPic =>
    some (proc.handleBinInfoEvent baddr memsz path (isPic = 1))
  | .libLoad baddr memsz path => some (proc.handleBinInfoEvent baddr memsz path true)
  | .libUnload baddr =>
    if (proc.baddrToBinInfo baddr).isSome then
      some { proc with baddrToBinInfo := Function.update proc.baddrToBinInfo baddr none }
    else none
  | .other => some proc

/-- The binary at which the loop over the hash table stops. Its order isn't known. -/
def Finds (proc : ProcDebugInfoSources Info) (ip : UInt64) (found : Option BinInfo) : Prop :=
  match found with
  | some bin => (∃ baddr, proc.baddrToBinInfo baddr = some bin) ∧ bin.hasAddress ip
  | none => ∀ baddr bin, proc.baddrToBinInfo baddr = some bin → ¬bin.hasAddress ip

/-- `proc_debug_info_sources_get_entry()`, with the lookup in the binary, which may fail -/
def getEntry (lookup : BinInfo → UInt64 → Option Info) (proc : ProcDebugInfoSources Info)
    (ip : UInt64) (found : Option BinInfo) : Option Info × ProcDebugInfoSources Info :=
  match proc.ipToDebugInfoSrc ip with
  | some info => (some info, proc)
  | none =>
    match found.bind (lookup · ip) with
    | some info => (some info, { proc with
        ipToDebugInfoSrc := Function.update proc.ipToDebugInfoSrc ip (some info) })
    | none => (none, proc)

end ProcDebugInfoSources

variable (lookup : BinInfo → UInt64 → Option Info)

inductive Step (s : Int64 → ProcDebugInfoSources Info) (event : Event) :
    (Int64 → ProcDebugInfoSources Info) → Option Info → Prop
  | mk {proc proc' : ProcDebugInfoSources Info} {found : Option BinInfo} {answer : Option Info}
      (hrecord : (s event.vpid).handleEventStatedump event.record = some proc)
      (hfound : proc.Finds event.ip found)
      (hentry : proc.getEntry lookup event.ip found = (answer, proc')) :
      Step s event (Function.update s event.vpid proc') answer

/-- The most recent event first -/
inductive Run (cond : (Int64 → ProcDebugInfoSources Info) → Event → Prop) :
    List Event → (Int64 → ProcDebugInfoSources Info) → Prop
  | nil : Run cond [] fun _ => {}
  | cons {events : List Event} {event : Event} {s s' : Int64 → ProcDebugInfoSources Info}
      {answer : Option Info} (hrun : Run cond events s) (hcond : cond s event)
      (h : Step lookup s event s' answer) : Run cond (event :: events) s'

/-! ## Properties -/

/-- Loaded or dumped by the process since its last state dump start, and not unloaded since -/
def Mapped (vpid : Int64) (bin : BinInfo) : List Event → Prop
  | [] => False
  | event :: events =>
    if event.vpid ≠ vpid then Mapped vpid bin events
    else
      match event.record with
      | .statedumpStart => False
      | .statedumpBinInfo baddr memsz path isPic =>
        (∃ p, path = some p ∧ bin = ⟨p, baddr, memsz, isPic = 1⟩) ∨ Mapped vpid bin events
      | .libLoad baddr memsz path =>
        (∃ p, path = some p ∧ bin = ⟨p, baddr, memsz, true⟩) ∨ Mapped vpid bin events
      | .libUnload baddr => bin.lowAddr ≠ baddr ∧ Mapped vpid bin events
      | .other => Mapped vpid bin events

def Forgettable (s : Int64 → ProcDebugInfoSources Info) (event : Event) : Prop :=
  ∀ baddr, event.record = .libUnload baddr →
    ∃ bin, (s event.vpid).baddrToBinInfo baddr = some bin ∧
      ∀ ip, bin.hasAddress ip → (s event.vpid).ipToDebugInfoSrc ip = none

variable {lookup}

/-! ## Invariant -/

structure Knows (lookup : BinInfo → UInt64 → Option Info) (vpid : Int64) (events : List Event)
    (proc : ProcDebugInfoSources Info) : Prop where
  bin : ∀ {baddr bin}, proc.baddrToBinInfo baddr = some bin →
    bin.lowAddr = baddr ∧ Mapped vpid bin events
  info : ∀ {ip info}, proc.ipToDebugInfoSrc ip = some info →
    ∃ baddr bin, proc.baddrToBinInfo baddr = some bin ∧ bin.hasAddress ip ∧ lookup bin ip = some info

theorem BinInfo.contains_of_hasAddress {bin : BinInfo} {addr : UInt64}
    (h : bin.hasAddress addr = true) : bin.Contains addr := by
  simp only [hasAddress, highAddr, Bool.and_eq_true, decide_eq_true_eq, ge_iff_le,
    UInt64.le_iff_toNat_le, UInt64.lt_iff_toNat_lt, UInt64.toNat_add] at h
  exact ⟨h.1, h.2.trans_le (Nat.mod_le _ _)⟩

section
variable {s s' : Int64 → ProcDebugInfoSources Info} {events : List Event} {event : Event}
  {vpid : Int64} {proc proc' : ProcDebugInfoSources Info}

theorem Knows.handleBinInfoEvent (hknows : Knows lookup vpid events proc) {baddr memsz : UInt64}
    {path : Option String} {isPic : Bool} {events' : List Event}
    (hmapped : ∀ bin, Mapped vpid bin events' ↔
      (∃ p, path = some p ∧ bin = ⟨p, baddr, memsz, isPic⟩) ∨ Mapped vpid bin events) :
    Knows lookup vpid events' (proc.handleBinInfoEvent baddr memsz path isPic) := by
  have hkept : Knows lookup vpid events' proc :=
    ⟨fun h => ⟨(hknows.bin h).1, (hmapped _).mpr (.inr (hknows.bin h).2)⟩, hknows.info⟩
  unfold ProcDebugInfoSources.handleBinInfoEvent
  by_cases hmemsz : memsz = 0
  · rw [if_pos hmemsz]
    exact hkept
  · rw [if_neg hmemsz]
    cases path with
    | none => exact hkept
    | some path =>
      by_cases hknown : (proc.baddrToBinInfo baddr).isSome
      · simp only [if_pos hknown]
        exact hkept
      · simp only [if_neg hknown]
        constructor
        · intro baddr' bin h
          rcases eq_or_ne baddr' baddr with rfl | hne
          · simp only [Function.update_self, Option.some.injEq] at h
            exact ⟨h ▸ rfl, (hmapped bin).mpr (.inl ⟨path, rfl, h.symm⟩)⟩
          · simp only [Function.update_of_ne hne] at h
            exact hkept.bin h
        · intro ip info h
          obtain ⟨baddr', bin, hbin, hip, hinfo⟩ := hkept.info h
          refine ⟨baddr', bin, (Function.update_of_ne ?_ ..).trans hbin, hip, hinfo⟩
          rintro rfl
          simp [hbin] at hknown

theorem Knows.handleEventStatedump (hknows : Knows lookup event.vpid events (s event.vpid))
    (hcond : Forgettable s event) :
    ∃ proc, (s event.vpid).handleEventStatedump event.record = some proc ∧
      Knows lookup event.vpid (event :: events) proc := by
  obtain ⟨vpid, ip, record⟩ := event
  cases record with
  | statedumpStart => exact ⟨{}, rfl, nofun, nofun⟩
  | statedumpBinInfo | libLoad =>
    exact ⟨_, rfl, hknows.handleBinInfoEvent fun bin => by simp [Mapped]⟩
  | libUnload baddr =>
    obtain ⟨bin, hbin, hforgotten⟩ := hcond baddr rfl
    refine ⟨_, if_pos (by simp [hbin]), fun {baddr' bin'} h => ?_, fun {ip info} h => ?_⟩
    · rcases eq_or_ne baddr' baddr with rfl | hne
      · simp at h
      · simp only [Function.update_of_ne hne] at h
        obtain ⟨hlow, hmapped⟩ := hknows.bin h
        refine ⟨hlow, ?_⟩
        simp only [Mapped, ne_eq, not_true_eq_false, if_false]
        exact ⟨hlow ▸ hne, hmapped⟩
    · obtain ⟨baddr', bin', hbin', hip, hinfo⟩ := hknows.info h
      refine ⟨baddr', bin', (Function.update_of_ne ?_ ..).trans hbin', hip, hinfo⟩
      rintro rfl
      -- the binary which is unloaded has no address in the cache
      obtain rfl := Option.some.inj (hbin.symm.trans hbin')
      exact absurd h (by simp [hforgotten ip hip])
  | other =>
    refine ⟨_, rfl, fun h => ⟨(hknows.bin h).1, ?_⟩, hknows.info⟩
    simpa [Mapped] using (hknows.bin h).2

theorem Knows.other (hknows : Knows lookup vpid events proc) (hvpid : event.vpid ≠ vpid) :
    Knows lookup vpid (event :: events) proc := by
  refine ⟨fun h => ⟨(hknows.bin h).1, ?_⟩, hknows.info⟩
  simpa [Mapped, hvpid] using (hknows.bin h).2

theorem Knows.getEntry (hknows : Knows lookup vpid events proc) {ip : UInt64}
    {found : Option BinInfo} (hfound : proc.Finds ip found) :
    (∀ info ∈ (proc.getEntry lookup ip found).1, ∃ bin, Mapped vpid bin events ∧ bin.Contains ip ∧
      lookup bin ip = some info) ∧
      Knows lookup vpid events (proc.getEntry lookup ip found).2 := by
  unfold ProcDebugInfoSources.getEntry
  cases hcached : proc.ipToDebugInfoSrc ip with
  | some info =>
    obtain ⟨baddr, bin, hbin, hip, hinfo⟩ := hknows.info hcached
    refine ⟨fun info' h => ?_, hknows⟩
    obtain rfl := Option.some.inj h
    exact ⟨bin, (hknows.bin hbin).2, BinInfo.contains_of_hasAddress hip, hinfo⟩
  | none =>
    simp only
    cases hlookup : found.bind (lookup · ip) with
    | none => exact ⟨nofun, hknows⟩
    | some info =>
      obtain ⟨bin, rfl, hinfo⟩ := Option.bind_eq_some_iff.mp hlookup
      obtain ⟨⟨baddr, hbin⟩, hip⟩ := hfound
      refine ⟨fun info' h => ?_, hknows.bin, fun {ip' info'} h => ?_⟩
      · obtain rfl := Option.some.inj h
        exact ⟨bin, (hknows.bin hbin).2, BinInfo.contains_of_hasAddress hip, hinfo⟩
      · rcases eq_or_ne ip' ip with rfl | hne
        · simp only [Function.update_self, Option.some.injEq] at h
          exact ⟨baddr, bin, hbin, hip, h ▸ hinfo⟩
        · simp only [Function.update_of_ne hne] at h
          exact hknows.info h

theorem ProcDebugInfoSources.exists_finds (proc : ProcDebugInfoSources Info) (ip : UInt64) :
    ∃ found, proc.Finds ip found := by
  by_cases h : ∃ baddr bin, proc.baddrToBinInfo baddr = some bin ∧ bin.hasAddress ip
  · obtain ⟨baddr, bin, hbin, hip⟩ := h
    exact ⟨some bin, ⟨baddr, hbin⟩, hip⟩
  · exact ⟨none, fun baddr bin hbin hip => h ⟨baddr, bin, hbin, hip⟩⟩

theorem Run.knows (hrun : Run lookup Forgettable events s) (vpid : Int64) :
    Knows lookup vpid events (s vpid) := by
  induction hrun with
  | nil => exact ⟨nofun, nofun⟩
  | @cons events event s s' answer hrun hcond h ih =>
    obtain ⟨hrecord, hfound, hentry⟩ := h
    rcases eq_or_ne vpid event.vpid with rfl | hne
    · rw [Function.update_self]
      obtain ⟨proc, hproc, hknows⟩ := ih.handleEventStatedump hcond
      obtain rfl := Option.some.inj (hrecord.symm.trans hproc)
      simpa only [hentry] using (hknows.getEntry hfound).2
    · rw [Function.update_of_ne hne]
      exact ih.other hne.symm

/-! ## Result -/

theorem Run.filter (hrun : Run lookup Forgettable events s) (vpid : Int64) :
    ∃ s', Run lookup Forgettable (events.filter (·.vpid = vpid)) s' ∧ s' vpid = s vpid := by
  induction hrun with
  | nil => exact ⟨_, .nil, rfl⟩
  | @cons events event s s' answer hrun hcond h ih =>
    obtain ⟨s₀, hrun₀, hs₀⟩ := ih
    obtain ⟨hrecord, hfound, hentry⟩ := h
    rcases eq_or_ne event.vpid vpid with rfl | hne
    · rw [List.filter_cons_of_pos (by simp)]
      refine ⟨_, .cons hrun₀ (fun baddr h => ?_) (.mk (hs₀ ▸ hrecord) hfound hentry), ?_⟩
      · rw [hs₀]
        exact hcond baddr h
      · rw [Function.update_self, Function.update_self]
    · rw [List.filter_cons_of_neg (by simpa using hne), Function.update_of_ne hne.symm]
      exact ⟨s₀, hrun₀, hs₀⟩

end

end

/-! ### A library -/

def pathOf (bin : BinInfo) (_ : UInt64) : Option String := some bin.path

def lib : BinInfo := ⟨"lib.so", 4096, 256, true⟩

def loadLib : Event := ⟨1, 0, .libLoad 4096 256 (some "lib.so")⟩

def inLib : Event := ⟨1, 4100, .other⟩

def unloadLib : Event := ⟨1, 0, .libUnload 4096⟩

theorem forgettable_loadLib (s : Int64 → ProcDebugInfoSources String) : Forgettable s loadLib :=
  fun _ h => Record.noConfusion h

theorem forgettable_inLib (s : Int64 → ProcDebugInfoSources String) : Forgettable s inLib :=
  fun _ h => Record.noConfusion h

def loadedProc : ProcDebugInfoSources String :=
  ⟨Function.update (fun _ => none) 4096 (some lib), fun _ => none⟩

theorem eq_of_loadedProc {baddr : UInt64} {bin : BinInfo}
    (h : loadedProc.baddrToBinInfo baddr = some bin) : baddr = 4096 ∧ bin = lib := by
  rcases eq_or_ne baddr 4096 with rfl | hne
  · simp only [loadedProc, Function.update_self, Option.some.injEq] at h
    exact ⟨rfl, h.symm⟩
  · simp [loadedProc, Function.update_of_ne hne] at h

theorem step_loadLib :
    Step pathOf (fun _ => {}) loadLib (Function.update (fun _ => {}) 1 loadedProc) none := by
  have hfinds : loadedProc.Finds 0 none := fun baddr bin h => by
    rw [(eq_of_loadedProc h).2]
    decide
  exact .mk rfl hfinds rfl

def lookedUpProc : ProcDebugInfoSources String :=
  ⟨loadedProc.baddrToBinInfo, Function.update (fun _ => none) 4100 (some "lib.so")⟩

def unloadedProc : ProcDebugInfoSources String :=
  ⟨Function.update loadedProc.baddrToBinInfo 4096 none, lookedUpProc.ipToDebugInfoSrc⟩

theorem unloadedProc_finds (ip : UInt64) : unloadedProc.Finds ip none := by
  intro baddr bin h
  rcases eq_or_ne baddr 4096 with rfl | hne
  · simp [unloadedProc] at h
  · simp only [unloadedProc, Function.update_of_ne hne] at h
    exact absurd (eq_of_loadedProc h).1 hne

end Babeltrace.DebugInfo
