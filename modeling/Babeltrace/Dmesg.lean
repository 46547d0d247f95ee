import Babeltrace.CLib

/-!
# The `src.text.dmesg` component class

The message iterator of `dmesg.c` makes an event message of each line which isn't blank, one line
ahead. `timegm()` is a parameter and `sscanf()` is modelled for the two formats of the code. Strings
are bytes: 10 is a line feed, 32 a space, 46 a dot, 91 and 93 are brackets. A program which crashes
gives `none`.
-/
namespace Babeltrace.Dmesg
open CLib (isSpace)

/-! ## Input -/

/-- A regular file without null bytes -/
structure InputFile where
  bytes : List UInt8
  zero_notMem : 0 ∉ bytes

/-- What each call to `bt_getline()` reads -/
def linesOf : List UInt8 → List (List UInt8)
  | [] => []
  | ch :: bytes =>
    if ch = 10 then [ch] :: linesOf bytes
    else
      match linesOf bytes with
      | [] => [[ch]]
      | line :: lines => (ch :: line) :: lines

def InputFile.lines (file : InputFile) : List (List UInt8) := linesOf file.bytes

def isBlank (line : List UInt8) : Bool := line.all isSpace

/-! ## Timestamps -/

def isDigit (ch : UInt8) : Bool := 48 ≤ ch && ch ≤ 57

def digitsVal (digits : List UInt8) : ℕ := digits.foldl (fun val ch => 10 * val + (ch.toNat - 48)) 0

/-- An ordinary character of a `sscanf()` format -/
def scanChar (ch : UInt8) : List UInt8 → Option (List UInt8)
  | [] => none
  | ch' :: input => if ch' = ch then some input else none

/-- The directive `%lu`, with the value which `strtoul()` gives -/
def scanULong (input : List UInt8) : Option (UInt64 × List UInt8) :=
  let input := input.dropWhile isSpace
  let isNeg := input.head? = some 45
  let input := if isNeg ∨ input.head? = some 43 then input.tail else input
  let digits := input.takeWhile isDigit
  if digits = [] then none
  else
    let val := digitsVal digits
    let val : UInt64 :=
      if 2 ^ 64 ≤ val then (2 ^ 64 - 1 : ℕ).toUInt64
      else if isNeg then -val.toUInt64 else val.toUInt64
    some (val, input.drop digits.length)

/-- The directive `%u`: the low bits of what `strtoul()` gives -/
def scanUInt (input : List UInt8) : Option (UInt32 × List UInt8) :=
  (scanULong input).map fun scanned => (scanned.1.toUInt32, scanned.2)

/-- `sscanf(line, "[%lu.%lu] ")`, when it makes two conversions, with the input after them -/
def scanSecUsec (line : List UInt8) : Option ((UInt64 × UInt64) × List UInt8) := do
  let input ← scanChar 91 line
  let (sec, input) ← scanULong input
  let input ← scanChar 46 input
  let (usec, input) ← scanULong input
  return ((sec, usec), input)

/-- `struct tm`: what the code sets -/
structure Tm where
  year : Int32
  mon : Int32
  mday : Int32
  hour : Int32
  min : Int32
  sec : Int32
  deriving DecidableEq

/-- `sscanf(line, "[%u-%u-%u %u:%u:%lu.%lu] ")` with seven conversions -/
def scanDate (line : List UInt8) : Option ((Tm × UInt64) × List UInt8) := do
  let input ← scanChar 91 line
  let (year, input) ← scanUInt input
  let input ← scanChar 45 input
  let (mon, input) ← scanUInt input
  let input ← scanChar 45 input
  let (mday, input) ← scanUInt input
  let (hour, input) ← scanUInt input
  let input ← scanChar 58 input
  let (min, input) ← scanUInt input
  let input ← scanChar 58 input
  let (sec, input) ← scanULong input
  let input ← scanChar 46 input
  let (msec, input) ← scanULong input
  return ((⟨(year - 1900).toInt32, (mon - 1).toInt32, mday.toInt32, hour.toInt32, min.toInt32,
    sec.toUInt32.toInt32⟩, msec), input)

section
variable (timegm : Tm → Int64) (noTimestamp : Bool)

/-- The timestamp which `create_init_event_msg_from_line()` extracts, and the input after it -/
def scanTimestamp (line : List UInt8) : Option (UInt64 × List UInt8) :=
  if noTimestamp then none
  else
    match scanSecUsec line with
    | some ((sec, usec), input) => some ((sec * 1000000 + usec) * 1000, input)
    | none =>
      match scanDate line with
      | none => none
      | some ((tm, msec), input) =>
        let epSec := timegm tm
        some (if epSec = -1 then 0 else epSec.toUInt64 * 1000000000 + msec * 1000000, input)

def timestampOf (line : List UInt8) : Option UInt64 :=
  (scanTimestamp timegm noTimestamp line).map Prod.fst

/-! ## Message iterator -/

structure EventMsg where
  payload : List UInt8
  clockSnapshot : Option UInt64
  deriving DecidableEq, Repr

inductive Msg
  | streamBeginning
  | event (msg : EventMsg)
  | streamEnd
  deriving DecidableEq, Repr

inductive State
  | emitStreamBeginning
  | emitEvent
  | emitStreamEnd
  | done
  deriving DecidableEq, Repr

/-- `rest` are the lines from the position of the file. -/
structure Iter where
  rest : List (List UInt8)
  tmpEventMsg : Option EventMsg := none
  lastClockValue : UInt64 := 0
  state : State := .emitStreamBeginning
  hasClockClass : Option Bool := none
  deriving DecidableEq, Repr

/-- `strchr()` can give a null pointer. -/
def newStart (line : List UInt8) : Option (List UInt8 × List UInt8) :=
  match line.dropWhile (· ≠ 93) with
  | [] => none
  | bracket :: start =>
    let before := line.takeWhile (· ≠ 93) ++ [bracket]
    if start.head? = some 32 then some (before ++ [32], start.tail) else some (before, start)

/-- The last character of an empty line is the one before it, and a length of -1 is too large. -/
def fillEventPayloadFromLine (before line : List UInt8) : Option (List UInt8) :=
  match line.getLast? with
  | some ch => some (if ch = 10 then line.dropLast else line)
  | none =>
    match before.getLast? with
    | none => none
    | some ch => if ch = 10 then none else some []

/-- What `create_init_event_msg_from_line()` sets `*new_start` to -/
def messageStart (line : List UInt8) : Option (List UInt8 × List UInt8) :=
  if (timestampOf timegm noTimestamp line).isSome then newStart line else some ([], line)

def createMsgFromLine (it : Iter) (line : List UInt8) : Option (EventMsg × Iter) := do
  let ts := timestampOf timegm noTimestamp line
  let (before, start) ← messageStart timegm noTimestamp line
  -- try_create_meta_stream()
  let hasClockClass := it.hasClockClass.getD ts.isSome
  let it := { it with hasClockClass := some hasClockClass }
  let payload ← fillEventPayloadFromLine before start
  if hasClockClass then
    return (⟨payload, some (ts.getD 0)⟩, { it with lastClockValue := ts.getD 0 })
  else return (⟨payload, none⟩, it)

/-- The status of `dmesg_msg_iter_next_one()`, with the message -/
inductive Status
  | ok (msg : Msg)
  | ended
  | error
  deriving DecidableEq, Repr

/-- The label `handle_state` of `dmesg_msg_iter_next_one()` -/
def handleState (it : Iter) : Status × Iter :=
  match it.state with
  | .emitStreamBeginning => (.ok .streamBeginning, { it with state := .emitEvent })
  | .emitEvent =>
    match it.tmpEventMsg with
    | none => (.error, it)
    | some msg => (.ok (.event msg), { it with tmpEventMsg := none })
  | .emitStreamEnd => (.ok .streamEnd, { it with state := .done })
  | .done => (.error, it)

def nextOne (it : Iter) : Option (Status × Iter) :=
  if it.state = .done then some (.ended, it)
  else if it.tmpEventMsg.isSome ∨ it.state = .emitStreamEnd then some (handleState it)
  else
    match it.rest.dropWhile isBlank with
    | [] =>
      if it.state = .emitStreamBeginning then some (.ended, { it with rest := [] })
      else some (handleState { it with rest := [], state := .emitStreamEnd })
    | line :: rest => do
      let (msg, it) ← createMsgFromLine timegm noTimestamp { it with rest := rest } line
      some (handleState { it with tmpEventMsg := some msg })

inductive Output (α : Type)
  | msgs (msgs : List α)
  | ended
  | error
  | sought
  deriving DecidableEq, Repr

/-- The loop of `dmesg_msg_iter_next()` -/
def nextLoop : ℕ → Iter → Option (List Msg × Option (Output Msg) × Iter)
  | 0, it => some ([], none, it)
  | capacity + 1, it => do
    let (status, it) ← nextOne timegm noTimestamp it
    match status with
    | .ok msg => do
      let (msgs, status, it) ← nextLoop capacity it
      return (msg :: msgs, status, it)
    | .ended => return ([], some .ended, it)
    | .error => return ([], some .error, it)

/-- `dmesg_msg_iter_next()` -/
def next (capacity : ℕ+) (it : Iter) : Option (Output Msg × Iter) := do
  let (msgs, status, it) ← nextLoop timegm noTimestamp capacity it
  return (if msgs ≠ [] then .msgs msgs else status.getD (.msgs []), it)

/-- `dmesg_msg_iter_seek_beginning()` -/
def seekBeginning (it : Iter) : Iter :=
  { it with tmpEventMsg := none, lastClockValue := 0, state := .emitStreamBeginning }

inductive Call
  | next (capacity : ℕ+)
  | seekBeginning
  deriving DecidableEq

def step (call : Call) (it : Iter) : Option (Output Msg × Iter) :=
  match call with
  | .next capacity => next timegm noTimestamp capacity it
  | .seekBeginning => some (.sought, seekBeginning it)

def run : List Call → Iter → Option (List (Output Msg))
  | [], _ => some []
  | call :: calls, it => do
    let (output, it) ← step timegm noTimestamp call it
    let outputs ← run calls it
    return output :: outputs

end

/-! ## What the component class is for -/

inductive Content
  | streamBeginning
  | event (payload : List UInt8)
  | streamEnd
  deriving DecidableEq, Repr

def Msg.content : Msg → Content
  | .streamBeginning => .streamBeginning
  | .event msg => .event msg.payload
  | .streamEnd => .streamEnd

def Msg.clockSnapshot : Msg → Option UInt64
  | .event msg => msg.clockSnapshot
  | .streamBeginning | .streamEnd => none

def Output.map {α β : Type} (f : α → β) : Output α → Output β
  | .msgs ms => .msgs (ms.map f)
  | .ended => .ended
  | .error => .error
  | .sought => .sought

def Output.toMsgs {α : Type} : Output α → List α
  | .msgs ms => ms
  | .ended | .error | .sought => []

/-- The calls over the messages `all`, of which `pending` are the next ones -/
def specStep {α : Type} (all : List α) (call : Call) (pending : List α) : Output α × List α :=
  match call with
  | .next capacity =>
    if pending = [] then (.ended, []) else (.msgs (pending.take capacity), pending.drop capacity)
  | .seekBeginning => (.sought, all)

def specRun {α : Type} (all : List α) : List Call → List α → List (Output α)
  | [], _ => []
  | call :: calls, pending =>
    let (output, pending) := specStep all call pending
    output :: specRun all calls pending

section
variable (timegm : Tm → Int64) (noTimestamp : Bool)

/-- The prefix is a timestamp between brackets, and a space can follow. -/
def withoutTimestamp (line : List UInt8) : List UInt8 :=
  match scanTimestamp timegm noTimestamp line with
  | none => line
  | some (_, input) =>
    if input.head? = some 93 then
      if input.tail.head? = some 32 then input.tail.tail else input.tail
    else line

def withoutLineFeed (line : List UInt8) : List UInt8 :=
  if line.getLast? = some 10 then line.dropLast else line

def payloadOf (line : List UInt8) : List UInt8 :=
  withoutLineFeed (withoutTimestamp timegm noTimestamp line)

def nonBlank (lines : List (List UInt8)) : List (List UInt8) := lines.filter fun line => !isBlank line

def contentsOf (lines : List (List UInt8)) : List Content :=
  if nonBlank lines = [] then []
  else
    .streamBeginning :: ((nonBlank lines).map fun line =>
      .event (payloadOf timegm noTimestamp line)) ++ [.streamEnd]

/-- No crash, the messages of the file, again after a seek, and clock snapshots which never decrease
between two seeks -/
def Conforms (file : InputFile) (calls : List Call) : Prop :=
  ∃ outputs, run timegm noTimestamp calls { rest := file.lines } = some outputs ∧
    outputs.map (Output.map Msg.content) =
      specRun (contentsOf timegm noTimestamp file.lines) calls
        (contentsOf timegm noTimestamp file.lines) ∧
    ∀ before segment after, outputs = before ++ segment ++ after → .sought ∉ segment →
      ((segment.flatMap Output.toMsgs).filterMap Msg.clockSnapshot).Pairwise (· ≤ ·)

/-! ## Lines and their messages -/

variable {timegm noTimestamp} {line : List UInt8} {it it' : Iter} {input rest : List UInt8}
  {calls : List Call} {α : Type}

/-- The closing bracket directly follows the timestamp. -/
def Closed (timegm : Tm → Int64) (noTimestamp : Bool) (line : List UInt8) : Prop :=
  ∀ scanned ∈ scanTimestamp timegm noTimestamp line, scanned.2.head? = some 93

instance : Decidable (Closed timegm noTimestamp line) :=
  inferInstanceAs (Decidable (∀ scanned ∈ _, _))

/-- A scan which consumes no closing bracket -/
def ScansTo (input rest : List UInt8) : Prop := ∃ scanned, input = scanned ++ rest ∧ 93 ∉ scanned

theorem ScansTo.trans {input input' rest : List UInt8} (h : ScansTo input input')
    (h' : ScansTo input' rest) : ScansTo input rest := by
  obtain ⟨scanned, rfl, hnot⟩ := h
  obtain ⟨scanned', rfl, hnot'⟩ := h'
  exact ⟨scanned ++ scanned', (List.append_assoc ..).symm, by simp [hnot, hnot']⟩

theorem scanChar_scansTo {ch : UInt8} (hch : ch ≠ 93) (h : scanChar ch input = some rest) :
    ScansTo input rest := by
  cases input with
  | nil => cases h
  | cons ch' input =>
    rw [scanChar] at h
    split at h
    · rename_i heq
      cases h
      exact ⟨[ch'], rfl, by simp [heq, hch.symm]⟩
    · cases h

theorem dropWhile_scansTo {p : UInt8 → Bool} (hp : p 93 = false) (input : List UInt8) :
    ScansTo input (input.dropWhile p) :=
  ⟨input.takeWhile p, List.takeWhile_append_dropWhile.symm,
    fun hmem => by rw [List.mem_takeWhile_imp hmem] at hp; cases hp⟩

theorem sign_scansTo (input : List UInt8) :
    ScansTo input (if input.head? = some 45 ∨ input.head? = some 43 then input.tail else input) := by
  split
  · rename_i hhead
    cases input with
    | nil => simp at hhead
    | cons ch input =>
      refine ⟨[ch], rfl, fun hmem => ?_⟩
      rw [← List.mem_singleton.mp hmem] at hhead
      simp at hhead
  · exact ⟨[], rfl, List.not_mem_nil⟩

theorem scanULong_scansTo {val : UInt64} (h : scanULong input = some (val, rest)) :
    ScansTo input rest := by
  have hsign := (dropWhile_scansTo (by decide) input).trans (sign_scansTo (input.dropWhile isSpace))
  simp only [scanULong] at h
  generalize (if (input.dropWhile isSpace).head? = some 45 ∨
    (input.dropWhile isSpace).head? = some 43 then _ else _) = digits at h hsign
  split at h
  · cases h
  · cases h
    have hdrop : (digits.takeWhile isDigit ++ digits.dropWhile isDigit).drop
        (digits.takeWhile isDigit).length = digits.dropWhile isDigit := List.drop_left
    rw [List.takeWhile_append_dropWhile] at hdrop
    rw [hdrop]
    exact hsign.trans (dropWhile_scansTo (by decide) digits)

theorem scanUInt_scansTo {val : UInt32} (h : scanUInt input = some (val, rest)) :
    ScansTo input rest := by
  obtain ⟨⟨_, _⟩, hscan, hscanned⟩ := Option.map_eq_some_iff.mp h
  cases hscanned
  exact scanULong_scansTo hscan

theorem scanSecUsec_scansTo {line rest : List UInt8} {vals : UInt64 × UInt64}
    (h : scanSecUsec line = some (vals, rest)) : ScansTo line rest := by
  simp only [scanSecUsec, Option.bind_eq_bind, Option.bind_eq_some_iff, Prod.exists] at h
  obtain ⟨_, hopen, _, _, hsec, _, hdot, _, _, husec, hvals⟩ := h
  cases hvals
  exact (scanChar_scansTo (by decide) hopen).trans <| (scanULong_scansTo hsec).trans <|
    (scanChar_scansTo (by decide) hdot).trans (scanULong_scansTo husec)

theorem scanDate_scansTo {line rest : List UInt8} {vals : Tm × UInt64}
    (h : scanDate line = some (vals, rest)) : ScansTo line rest := by
  simp only [scanDate, Option.bind_eq_bind, Option.bind_eq_some_iff, Prod.exists] at h
  obtain ⟨_, hopen, _, _, hyear, _, hdash, _, _, hmon, _, hdash', _, _, hmday, _, _, hhour, _, hcolon,
    _, _, hmin, _, hcolon', _, _, hsec, _, hdot, _, _, hmsec, hvals⟩ := h
  cases hvals
  have hdate := (scanChar_scansTo (by decide) hopen).trans <| (scanUInt_scansTo hyear).trans <|
    (scanChar_scansTo (by decide) hdash).trans <| (scanUInt_scansTo hmon).trans <|
    (scanChar_scansTo (by decide) hdash').trans (scanUInt_scansTo hmday)
  exact hdate.trans <| (scanUInt_scansTo hhour).trans <| (scanChar_scansTo (by decide) hcolon).trans <|
    (scanUInt_scansTo hmin).trans <| (scanChar_scansTo (by decide) hcolon').trans <|
    (scanULong_scansTo hsec).trans <| (scanChar_scansTo (by decide) hdot).trans
    (scanULong_scansTo hmsec)

theorem scanTimestamp_scansTo {ts : UInt64}
    (h : scanTimestamp timegm noTimestamp line = some (ts, rest)) : ScansTo line rest := by
  unfold scanTimestamp at h
  split at h
  · cases h
  split at h
  · rename_i hscan
    cases h
    exact scanSecUsec_scansTo hscan
  · split at h
    · cases h
    · rename_i hscan
      cases h
      exact scanDate_scansTo hscan

def eventOf (timegm : Tm → Int64) (noTimestamp hasClockClass : Bool) (line : List UInt8) : EventMsg :=
  ⟨payloadOf timegm noTimestamp line,
    if hasClockClass then some ((timestampOf timegm noTimestamp line).getD 0) else none⟩

theorem fillEventPayloadFromLine_of_ne_nil {before : List UInt8} (hline : line ≠ []) :
    fillEventPayloadFromLine before line = some (withoutLineFeed line) := by
  rw [fillEventPayloadFromLine, withoutLineFeed, List.getLast?_eq_getLast_of_ne_nil hline]
  simp

/-- The first closing bracket of the line is the one which follows the timestamp. -/
theorem newStart_of_closed {scanned : UInt64 × List UInt8}
    (hscanned : scanTimestamp timegm noTimestamp line = some scanned)
    (hclosed : Closed timegm noTimestamp line) :
    ∃ before ch, newStart line = some (before ++ [ch], withoutTimestamp timegm noTimestamp line) ∧
      ch ≠ 10 := by
  obtain ⟨ts, input⟩ := scanned
  have hbracket : input.head? = some 93 := hclosed _ hscanned
  obtain ⟨start, rfl⟩ := List.head?_eq_some_iff.mp hbracket
  obtain ⟨before, rfl, hnot⟩ := scanTimestamp_scansTo hscanned
  have hne : ∀ ch ∈ before, decide (ch ≠ 93) = true := fun ch hch =>
    decide_eq_true fun heq => hnot (heq ▸ hch)
  have hdrop : (before ++ 93 :: start).dropWhile (· ≠ 93) = 93 :: start := by
    rw [List.dropWhile_append_of_pos hne]
    simp
  have htake : (before ++ 93 :: start).takeWhile (· ≠ 93) = before := by
    rw [List.takeWhile_append_of_pos hne]
    simp
  rw [newStart, hdrop, htake, withoutTimestamp, hscanned]
  by_cases hspace : start.head? = some 32
  · exact ⟨before ++ [93], 32, by simp [hspace], by decide⟩
  · exact ⟨before, 93, by simp [hspace], by decide⟩

theorem payload_of_closed (hblank : isBlank line = false)
    (hclosed : Closed timegm noTimestamp line) :
    ∃ before start, messageStart timegm noTimestamp line = some (before, start) ∧
      fillEventPayloadFromLine before start = some (payloadOf timegm noTimestamp line) := by
  rw [payloadOf, messageStart, timestampOf, Option.isSome_map]
  cases hscanned : scanTimestamp timegm noTimestamp line with
  | some scanned =>
    obtain ⟨before, ch, hstart, hch⟩ := newStart_of_closed hscanned hclosed
    refine ⟨before ++ [ch], _, hstart, ?_⟩
    cases hnil : withoutTimestamp timegm noTimestamp line with
    | nil => simp [fillEventPayloadFromLine, withoutLineFeed, hch]
    | cons ch' start => exact fillEventPayloadFromLine_of_ne_nil (List.cons_ne_nil ch' start)
  | none =>
    refine ⟨[], line, rfl, ?_⟩
    rw [withoutTimestamp, hscanned]
    apply fillEventPayloadFromLine_of_ne_nil
    rintro rfl
    cases hblank

theorem createMsgFromLine_of_closed (it : Iter) (hblank : isBlank line = false)
    (hclosed : Closed timegm noTimestamp line) :
    ∃ last, createMsgFromLine timegm noTimestamp it line =
      some (eventOf timegm noTimestamp
          (it.hasClockClass.getD (timestampOf timegm noTimestamp line).isSome) line,
        { it with
          hasClockClass :=
            some (it.hasClockClass.getD (timestampOf timegm noTimestamp line).isSome),
          lastClockValue := last }) := by
  obtain ⟨before, start, hstart, hpayload⟩ := payload_of_closed hblank hclosed
  simp only [createMsgFromLine, hstart, Option.bind_eq_bind, Option.bind_some, hpayload, eventOf]
  split
  · exact ⟨(timestampOf timegm noTimestamp line).getD 0, rfl⟩
  · exact ⟨it.lastClockValue, rfl⟩

/-! ## Messages of an iterator -/

/-- `hasClockClass` is what the component already created. -/
def msgsOf (timegm : Tm → Int64) (noTimestamp : Bool) (hasClockClass : Option Bool)
    (lines : List (List UInt8)) : List Msg :=
  match nonBlank lines with
  | [] => []
  | line :: lines =>
    let hasClockClass := hasClockClass.getD (timestampOf timegm noTimestamp line).isSome
    .streamBeginning :: ((line :: lines).map fun line =>
      .event (eventOf timegm noTimestamp hasClockClass line)) ++ [.streamEnd]

def Iter.pending (timegm : Tm → Int64) (noTimestamp : Bool) (it : Iter) : List Msg :=
  match it.state with
  | .emitStreamBeginning => msgsOf timegm noTimestamp it.hasClockClass it.rest
  | .emitEvent =>
    it.tmpEventMsg.toList.map .event ++ ((nonBlank it.rest).map fun line =>
      .event (eventOf timegm noTimestamp (it.hasClockClass.getD false) line)) ++ [.streamEnd]
  | .emitStreamEnd => [.streamEnd]
  | .done => []

structure Inv (timegm : Tm → Int64) (noTimestamp : Bool) (it : Iter) : Prop where
  tmp : it.state = .emitStreamBeginning → it.tmpEventMsg = none
  clock : it.state = .emitEvent → it.hasClockClass.isSome
  notEnd : it.state ≠ .emitStreamEnd
  closed : ∀ line ∈ nonBlank it.rest, Closed timegm noTimestamp line

theorem nonBlank_of_dropWhile_nil {lines : List (List UInt8)} (h : lines.dropWhile isBlank = []) :
    nonBlank lines = [] := by
  rw [nonBlank, List.filter_eq_nil_iff]
  intro line hline
  simp [List.dropWhile_eq_nil_iff.mp h line hline]

theorem nonBlank_of_dropWhile_cons {lines rest : List (List UInt8)}
    (h : lines.dropWhile isBlank = line :: rest) :
    isBlank line = false ∧ nonBlank lines = line :: nonBlank rest := by
  have hline : isBlank line = false := by
    have hhead := List.head?_dropWhile_not isBlank lines
    rw [h] at hhead
    simpa using hhead
  refine ⟨hline, ?_⟩
  have hblank : nonBlank (lines.takeWhile isBlank) = [] := by
    rw [nonBlank, List.filter_eq_nil_iff]
    intro line hline
    simp [List.mem_takeWhile_imp hline]
  have happend : nonBlank lines = nonBlank (lines.takeWhile isBlank) ++ nonBlank (line :: rest) := by
    rw [nonBlank, nonBlank, nonBlank, ← List.filter_append, ← h, List.takeWhile_append_dropWhile]
  rw [happend, hblank, nonBlank, List.filter_cons_of_pos (by simp [hline]), List.nil_append,
    nonBlank]

theorem msgsOf_cons {hasClockClass : Option Bool} {lines rest : List (List UInt8)}
    (h : nonBlank lines = line :: rest) :
    msgsOf timegm noTimestamp hasClockClass lines =
      .streamBeginning :: ((line :: rest).map fun line' =>
        .event (eventOf timegm noTimestamp
          (hasClockClass.getD (timestampOf timegm noTimestamp line).isSome) line')) ++
        [.streamEnd] := by
  rw [msgsOf, h]

theorem nextOne_of_inv (hinv : Inv timegm noTimestamp it) :
    ∃ status it', nextOne timegm noTimestamp it = some (status, it') ∧ Inv timegm noTimestamp it' ∧
      nonBlank it'.rest <:+ nonBlank it.rest ∧
      ((status = .ended ∧ it.pending timegm noTimestamp = [] ∧ it'.pending timegm noTimestamp = []) ∨
        ∃ msg, status = .ok msg ∧
          it.pending timegm noTimestamp = msg :: it'.pending timegm noTimestamp) := by
  obtain ⟨rest, tmp, last, state, clock⟩ := it
  obtain ⟨htmp, hclock, hnotEnd, hclosed⟩ := hinv
  cases state with
  | emitStreamEnd => exact absurd rfl hnotEnd
  | done =>
    exact ⟨_, _, rfl, ⟨htmp, hclock, hnotEnd, hclosed⟩, List.suffix_rfl, .inl ⟨rfl, rfl, rfl⟩⟩
  | emitStreamBeginning =>
    obtain rfl : tmp = none := htmp rfl
    cases hrest : rest.dropWhile isBlank with
    | nil =>
      -- the stream didn't even begin
      have hnil := nonBlank_of_dropWhile_nil hrest
      have hnext : nextOne timegm noTimestamp ⟨rest, none, last, .emitStreamBeginning, clock⟩ =
          some (.ended, ⟨[], none, last, .emitStreamBeginning, clock⟩) := by
        simp [nextOne, hrest]
      refine ⟨_, _, hnext, ⟨fun _ => rfl, nofun, nofun, by simp [nonBlank]⟩, List.nil_suffix,
        .inl ⟨rfl, ?_, rfl⟩⟩
      simp [Iter.pending, msgsOf, hnil]
    | cons line lines =>
      obtain ⟨hblank, hnonBlank⟩ := nonBlank_of_dropWhile_cons hrest
      rw [hnonBlank, List.forall_mem_cons] at hclosed
      obtain ⟨last', hcreate⟩ := createMsgFromLine_of_closed
        ⟨lines, none, last, .emitStreamBeginning, clock⟩ hblank hclosed.1
      refine ⟨.ok .streamBeginning, _, by simp [nextOne, hrest, hcreate, handleState]; rfl, ?_, ?_,
        .inr ⟨_, rfl, ?_⟩⟩
      · exact ⟨nofun, fun _ => rfl, nofun, hclosed.2⟩
      · rw [hnonBlank]
        exact List.suffix_cons line _
      · simp [Iter.pending, msgsOf_cons hnonBlank]
  | emitEvent =>
    obtain ⟨hasClockClass, rfl⟩ := Option.isSome_iff_exists.mp (hclock rfl)
    cases tmp with
    | some msg =>
      exact ⟨_, _, rfl, ⟨nofun, fun _ => rfl, nofun, hclosed⟩, List.suffix_rfl,
        .inr ⟨_, rfl, rfl⟩⟩
    | none =>
      cases hrest : rest.dropWhile isBlank with
      | nil =>
        have hnil := nonBlank_of_dropWhile_nil hrest
        have hnext : nextOne timegm noTimestamp ⟨rest, none, last, .emitEvent, some hasClockClass⟩ =
            some (.ok .streamEnd, ⟨[], none, last, .done, some hasClockClass⟩) := by
          simp [nextOne, hrest, handleState]
        refine ⟨_, _, hnext, ⟨nofun, nofun, nofun, by simp [nonBlank]⟩, List.nil_suffix,
          .inr ⟨_, rfl, ?_⟩⟩
        simp [Iter.pending, hnil]
      | cons line lines =>
        obtain ⟨hblank, hnonBlank⟩ := nonBlank_of_dropWhile_cons hrest
        rw [hnonBlank, List.forall_mem_cons] at hclosed
        obtain ⟨last', hcreate⟩ := createMsgFromLine_of_closed
          ⟨lines, none, last, .emitEvent, some hasClockClass⟩ hblank hclosed.1
        have hnext : nextOne timegm noTimestamp ⟨rest, none, last, .emitEvent, some hasClockClass⟩ =
            some (.ok (.event (eventOf timegm noTimestamp hasClockClass line)),
              ⟨lines, none, last', .emitEvent, some hasClockClass⟩) := by
          simp [nextOne, hrest, hcreate, handleState]
        refine ⟨_, _, hnext, ⟨nofun, fun _ => rfl, nofun, hclosed.2⟩, ?_, .inr ⟨_, rfl, ?_⟩⟩
        · rw [hnonBlank]
          exact List.suffix_cons line _
        · simp [Iter.pending, hnonBlank]

/-! ## Runs -/

theorem nextLoop_of_inv (capacity : ℕ) (hinv : Inv timegm noTimestamp it) :
    ∃ status it', nextLoop timegm noTimestamp capacity it =
        some ((it.pending timegm noTimestamp).take capacity, status, it') ∧
      Inv timegm noTimestamp it' ∧ nonBlank it'.rest <:+ nonBlank it.rest ∧
      it'.pending timegm noTimestamp = (it.pending timegm noTimestamp).drop capacity ∧
      (0 < capacity → it.pending timegm noTimestamp = [] → status = some .ended) := by
  induction capacity generalizing it with
  | zero => exact ⟨none, it, by simp [nextLoop], hinv, List.suffix_rfl, rfl, by simp⟩
  | succ capacity ih =>
    obtain ⟨status, it', hnext, hinv', hsuffix, ⟨rfl, hpending, hpending'⟩ | ⟨msg, rfl, hpending⟩⟩ :=
      nextOne_of_inv hinv
    · refine ⟨some .ended, it', ?_, hinv', hsuffix, ?_, fun _ _ => rfl⟩
      · simp [nextLoop, hnext, hpending]
      · rw [hpending, hpending', List.drop_nil]
    · obtain ⟨status, it'', hloop, hinv'', hsuffix', hpending'', -⟩ := ih hinv'
      refine ⟨status, it'', ?_, hinv'', hsuffix'.trans hsuffix, ?_, ?_⟩
      · simp [nextLoop, hnext, hloop, hpending]
      · rw [hpending, hpending'', List.drop_succ_cons]
      · simp [hpending]

theorem next_of_inv (capacity : ℕ+) (hinv : Inv timegm noTimestamp it) (all : List Msg) :
    ∃ it', next timegm noTimestamp capacity it =
        some ((specStep all (.next capacity) (it.pending timegm noTimestamp)).1, it') ∧
      Inv timegm noTimestamp it' ∧ nonBlank it'.rest <:+ nonBlank it.rest ∧
      it'.pending timegm noTimestamp =
        (specStep all (.next capacity) (it.pending timegm noTimestamp)).2 := by
  obtain ⟨status, it', hloop, hinv', hsuffix, hpending', hstatus⟩ := nextLoop_of_inv capacity hinv
  refine ⟨it', ?_, hinv', hsuffix, ?_⟩
  · simp only [next, hloop, Option.bind_eq_bind, Option.bind_some, specStep]
    by_cases hnil : it.pending timegm noTimestamp = []
    · simp [hnil, hstatus capacity.pos hnil]
    · simp [hnil, capacity.ne_zero]
  · rw [hpending', specStep]
    split
    · rename_i hnil
      rw [hnil, List.drop_nil]
    · rfl

theorem run_of_nexts (hinv : Inv timegm noTimestamp it) (all : List Msg)
    (hcalls : .seekBeginning ∉ calls) :
    run timegm noTimestamp calls it = some (specRun all calls (it.pending timegm noTimestamp)) := by
  induction calls generalizing it with
  | nil => rfl
  | cons call calls ih =>
    rw [List.mem_cons, not_or] at hcalls
    cases call with
    | seekBeginning => exact absurd rfl hcalls.1
    | next capacity =>
      obtain ⟨it', hnext, hinv', -, hpending⟩ := next_of_inv capacity hinv all
      simp [run, step, hnext, ih hinv' hcalls.2, specRun, hpending]

theorem run_of_seeks (lines : List (List UInt8)) (hinv : Inv timegm noTimestamp { rest := lines })
    (k : ℕ) (hcalls : .seekBeginning ∉ calls) :
    run timegm noTimestamp (List.replicate k .seekBeginning ++ calls) { rest := lines } =
      some (specRun (msgsOf timegm noTimestamp none lines)
        (List.replicate k .seekBeginning ++ calls) (msgsOf timegm noTimestamp none lines)) := by
  induction k with
  | zero => exact run_of_nexts hinv _ hcalls
  | succ k ih =>
    rw [List.replicate_succ, List.cons_append, run]
    simp only [step, seekBeginning, ih, Option.bind_eq_bind, Option.bind_some]
    rfl

theorem run_of_blank (hinv : Inv timegm noTimestamp it) (hblank : nonBlank it.rest = [])
    (hpending : it.pending timegm noTimestamp = []) (calls : List Call) :
    run timegm noTimestamp calls it = some (specRun [] calls []) := by
  induction calls generalizing it with
  | nil => rfl
  | cons call calls ih =>
    cases call with
    | seekBeginning =>
      have hseek : Inv timegm noTimestamp (seekBeginning it) :=
        ⟨fun _ => rfl, nofun, nofun, hinv.closed⟩
      have hpending' : (seekBeginning it).pending timegm noTimestamp = [] := by
        simp [Iter.pending, seekBeginning, msgsOf, hblank]
      simp [run, step, ih hseek hblank hpending', specRun, specStep]
    | next capacity =>
      obtain ⟨it', hnext, hinv', hsuffix, hpending'⟩ := next_of_inv capacity hinv []
      rw [hblank, List.suffix_nil] at hsuffix
      rw [hpending] at hnext hpending'
      simp [run, step, hnext, ih hinv' hsuffix hpending', specRun, specStep]

/-! ## Conformity -/

theorem map_specRun {α β : Type} (f : α → β) (all : List α) (calls : List Call) (pending : List α) :
    (specRun all calls pending).map (Output.map f) =
      specRun (all.map f) calls (pending.map f) := by
  induction calls generalizing pending with
  | nil => rfl
  | cons call calls ih =>
    rw [specRun, List.map_cons, ih, specRun]
    cases call with
    | seekBeginning => rfl
    | next capacity =>
      by_cases hnil : pending = []
      · simp [specStep, hnil, Output.map]
      · simp [specStep, hnil, Output.map]

theorem flatMap_specRun_prefix (all : List α) (hcalls : .seekBeginning ∉ calls) (pending : List α) :
    (specRun all calls pending).flatMap Output.toMsgs <+: pending := by
  induction calls generalizing pending with
  | nil => exact List.nil_prefix
  | cons call calls ih =>
    rw [List.mem_cons, not_or] at hcalls
    cases call with
    | seekBeginning => exact absurd rfl hcalls.1
    | next capacity =>
      rw [specRun, List.flatMap_cons, specStep]
      split
      · rename_i hnil
        rw [hnil]
        exact ih hcalls.2 []
      · have hprefix := ih hcalls.2 (pending.drop capacity)
        exact (List.prefix_append_right_inj _).mpr hprefix |>.trans
          (by rw [Output.toMsgs, List.take_append_drop])

theorem flatMap_specRun_seeks (all : List α) (k : ℕ) (calls : List Call) :
    (specRun all (List.replicate k .seekBeginning ++ calls) all).flatMap Output.toMsgs =
      (specRun all calls all).flatMap Output.toMsgs := by
  induction k with
  | zero => rfl
  | succ k ih =>
    rw [List.replicate_succ, List.cons_append, specRun, List.flatMap_cons]
    exact ih

theorem flatMap_specRun_nil (calls : List Call) :
    (specRun ([] : List α) calls []).flatMap Output.toMsgs = [] := by
  induction calls with
  | nil => rfl
  | cons call calls ih => cases call <;> exact ih

theorem map_content_msgsOf (hasClockClass : Option Bool) (lines : List (List UInt8)) :
    (msgsOf timegm noTimestamp hasClockClass lines).map Msg.content =
      contentsOf timegm noTimestamp lines := by
  rw [msgsOf, contentsOf]
  cases nonBlank lines with
  | nil => rfl
  | cons line lines => simp [Msg.content, eventOf]

/-- A line without a timestamp has the origin, and there are none at all if the first line has no
timestamp. -/
def clockSnapshotsOf (timegm : Tm → Int64) (noTimestamp : Bool) (lines : List (List UInt8)) :
    List UInt64 :=
  match nonBlank lines with
  | [] => []
  | line :: lines =>
    if (timestampOf timegm noTimestamp line).isSome then
      (line :: lines).map fun line => (timestampOf timegm noTimestamp line).getD 0
    else []

theorem filterMap_clockSnapshot_events (hasClockClass : Bool) (lines : List (List UInt8)) :
    (lines.map fun line => Msg.event (eventOf timegm noTimestamp hasClockClass line)).filterMap
        Msg.clockSnapshot =
      if hasClockClass then lines.map fun line => (timestampOf timegm noTimestamp line).getD 0
      else [] := by
  induction lines with
  | nil => simp
  | cons line lines ih =>
    rw [List.map_cons, List.filterMap_cons, ih]
    cases hasClockClass <;> rfl

theorem filterMap_clockSnapshot_msgsOf (lines : List (List UInt8)) :
    (msgsOf timegm noTimestamp none lines).filterMap Msg.clockSnapshot =
      clockSnapshotsOf timegm noTimestamp lines := by
  rw [msgsOf, clockSnapshotsOf]
  cases nonBlank lines with
  | nil => rfl
  | cons line lines =>
    simp only [Option.getD_none]
    rw [List.filterMap_append, List.filterMap_cons_none rfl, filterMap_clockSnapshot_events]
    exact List.append_nil _

/-- If each recognized timestamp is closed by its bracket, if the timestamps never decrease, and if the
user only seeks before asking for messages or within a file without events, then the calls give what
they should. -/
theorem conforms_of_closed (timegm : Tm → Int64) (noTimestamp : Bool) (file : InputFile)
    (calls : List Call) (hclosed : ∀ line ∈ nonBlank file.lines, Closed timegm noTimestamp line)
    (hsorted : (clockSnapshotsOf timegm noTimestamp file.lines).Pairwise (· ≤ ·))
    (hcalls : nonBlank file.lines = [] ∨ ∃ k nexts,
      calls = List.replicate k .seekBeginning ++ nexts ∧ .seekBeginning ∉ nexts) :
    Conforms timegm noTimestamp file calls := by
  let all := msgsOf timegm noTimestamp none file.lines
  have hinv : Inv timegm noTimestamp { rest := file.lines } :=
    ⟨fun _ => rfl, nofun, nofun, hclosed⟩
  have hrun : run timegm noTimestamp calls { rest := file.lines } = some (specRun all calls all) ∧
      (specRun all calls all).flatMap Output.toMsgs <+: all := by
    rcases hcalls with hblank | ⟨k, nexts, rfl, hnexts⟩
    · have hall : all = [] := by simp only [all, msgsOf, hblank]
      rw [hall, flatMap_specRun_nil]
      exact ⟨run_of_blank hinv hblank hall calls, List.nil_prefix⟩
    · refine ⟨run_of_seeks file.lines hinv k hnexts, ?_⟩
      rw [flatMap_specRun_seeks]
      exact flatMap_specRun_prefix all hnexts all
  refine ⟨_, hrun.1, ?_, ?_⟩
  · rw [map_specRun, map_content_msgsOf]
  · intro before segment after houtputs _
    have hsublist : (segment.flatMap Output.toMsgs).Sublist all := by
      refine List.Sublist.trans ?_ hrun.2.sublist
      rw [houtputs, List.flatMap_append, List.flatMap_append]
      exact (List.sublist_append_right _ _).trans (List.sublist_append_left _ _)
    exact hsorted.sublist (filterMap_clockSnapshot_msgsOf file.lines ▸ hsublist.filterMap _)

end

/-- The lines `[1.2] a` and `b` -/
def twoLines : InputFile where
  bytes := [91, 49, 46, 50, 93, 32, 97, 10, 98]
  zero_notMem := by decide

/-- The lines `[1.2] a` and `[1.3] b` -/
def sortedLines : InputFile where
  bytes := [91, 49, 46, 50, 93, 32, 97, 10, 91, 49, 46, 51, 93, 32, 98]
  zero_notMem := by decide

theorem conforms_sortedLines :
    Conforms (fun _ => 0) false sortedLines [.seekBeginning, .next 2, .next 2, .next 2] :=
  conforms_of_closed _ _ _ _ (by decide +kernel) (by decide +kernel)
    (.inr ⟨1, [.next 2, .next 2, .next 2], rfl, by decide⟩)

/-- The line `[1.2`, the timestamp of which has no closing bracket -/
def openLine : InputFile where
  bytes := [91, 49, 46, 50]
  zero_notMem := by decide

/-- The line `[1.2 x] y`, the timestamp of which has none either -/
def lostLine : InputFile where
  bytes := [91, 49, 46, 50, 32, 120, 93, 32, 121]
  zero_notMem := by decide

/-- The lines `[2.0] a` and `[1.0] b` -/
def decreasingLines : InputFile where
  bytes := [91, 50, 46, 48, 93, 32, 97, 10, 91, 49, 46, 48, 93, 32, 98, 10]
  zero_notMem := by decide

theorem not_conforms :
    run (fun _ => 0) false [.next 1] { rest := openLine.lines } = none ∧
    run (fun _ => 0) false [.next 9] { rest := lostLine.lines } =
      some [.msgs [.streamBeginning, .event ⟨[121], some 1000002000⟩, .streamEnd]] ∧
    run (fun _ => 0) false [.next 9] { rest := decreasingLines.lines } =
      some [.msgs [.streamBeginning, .event ⟨[97], some 2000000000⟩,
        .event ⟨[98], some 1000000000⟩, .streamEnd]] ∧
    run (fun _ => 0) true [.next 9, .seekBeginning, .next 9] { rest := twoLines.lines } =
      some [.msgs [.streamBeginning, .event ⟨[91, 49, 46, 50, 93, 32, 97], none⟩,
        .event ⟨[98], none⟩, .streamEnd], .sought, .ended] ∧
    ¬Conforms (fun _ => 0) false openLine [.next 1] ∧
    ¬Conforms (fun _ => 0) false lostLine [.next 9] ∧
    ¬Conforms (fun _ => 0) false decreasingLines [.next 9] ∧
    ¬Conforms (fun _ => 0) true twoLines [.next 9, .seekBeginning, .next 9] := by
  have hopen : run (fun _ => 0) false [.next 1] { rest := openLine.lines } = none := by
    decide +kernel
  have hlost : run (fun _ => 0) false [.next 9] { rest := lostLine.lines } =
      some [.msgs [.streamBeginning, .event ⟨[121], some 1000002000⟩, .streamEnd]] := by
    decide +kernel
  have hdecreasing : run (fun _ => 0) false [.next 9] { rest := decreasingLines.lines } =
      some [.msgs [.streamBeginning, .event ⟨[97], some 2000000000⟩,
        .event ⟨[98], some 1000000000⟩, .streamEnd]] := by
    decide +kernel
  have hseek : run (fun _ => 0) true [.next 9, .seekBeginning, .next 9] { rest := twoLines.lines } =
      some [.msgs [.streamBeginning, .event ⟨[91, 49, 46, 50, 93, 32, 97], none⟩,
        .event ⟨[98], none⟩, .streamEnd], .sought, .ended] := by
    decide +kernel
  refine ⟨hopen, hlost, hdecreasing, hseek, ?_, ?_, ?_, ?_⟩
  · rintro ⟨outputs, hrun, -⟩
    cases hopen.symm.trans hrun
  · rintro ⟨outputs, hrun, hspec, -⟩
    cases hlost.symm.trans hrun
    exact absurd hspec (by decide +kernel)
  · rintro ⟨outputs, hrun, -, hsorted⟩
    cases hdecreasing.symm.trans hrun
    exact absurd (hsorted [] _ [] (List.append_nil _).symm (by decide)) (by decide)
  · rintro ⟨outputs, hrun, hspec, -⟩
    cases hseek.symm.trans hrun
    exact absurd hspec (by decide +kernel)

end Babeltrace.Dmesg
