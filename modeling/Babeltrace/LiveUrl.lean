import Babeltrace.CLib
import Babeltrace.Numerals
import Babeltrace.Program

/-!
# LTTng live URLs

`bt_common_parse_lttng_live_url()`, with `sscanf()` and `strtol()` as glibc has them. Strings are
bytes without null characters: 47 is a slash, 58 a colon, 92 a backslash.
-/
namespace Babeltrace.LiveUrl
open CLib (isSpace)
open Excepts

/-! ## Parsing -/

/-- `bt_common_string_until()`: the output, and what remains of the input -/
def stringUntil (escapableChars endChars : List UInt8) : List UInt8 → List UInt8 × List UInt8
  | [] => ([], [])
  | ch :: input =>
    if ch = 92 then
      match input with
      | [] => ([ch], [])
      | ch' :: input =>
        let (output, rest) := stringUntil escapableChars endChars input
        if ch' ∈ escapableChars then (ch' :: output, rest) else (ch :: ch' :: output, rest)
    else if ch ∈ endChars then ([], ch :: input)
    else
      let (output, rest) := stringUntil escapableChars endChars input
      (ch :: output, rest)

theorem stringUntil_cons (escapableChars endChars : List UInt8) {ch : UInt8} (hch : ch ≠ 92)
    (input : List UInt8) :
    stringUntil escapableChars endChars (ch :: input) =
      if ch ∈ endChars then ([], ch :: input)
      else
        (ch :: (stringUntil escapableChars endChars input).1,
          (stringUntil escapableChars endChars input).2) := by
  conv_lhs => unfold stringUntil
  rw [if_neg hch]

def asciiDecimal : Digits UInt8 :=
  .ofDecimal (fun d => UInt8.ofNat (48 + d))
    (fun ch => if 48 ≤ ch.toNat ∧ ch.toNat < 58 then some (ch.toNat - 48) else none) (by decide)

/-- `strtol()`, for a sign and digits -/
def strtol (isNeg : Bool) (digits : List UInt8) : ℤ :=
  let val := asciiDecimal.value digits
  if isNeg then -min val (2 ^ 63) else min val (2 ^ 63 - 1)

/-- The low bits of what `strtol()` gives -/
def scanInt (input : List UInt8) : Option ℤ :=
  let input := input.dropWhile isSpace
  let isNeg := input.head? = some 45
  let input := if isNeg ∨ input.head? = some 43 then input.tail else input
  let digits := input.takeWhile asciiDecimal.isDigit
  if digits = [] then none else some ((strtol isNeg digits).bmod (2 ^ 32))

/-- `struct bt_common_lttng_live_url_parts` -/
structure UrlParts where
  proto : List UInt8
  hostname : List UInt8
  port : ℤ := -1
  targetHostname : Option (List UInt8) := none
  sessionName : Option (List UInt8) := none
  deriving DecidableEq

inductive UrlError
  | missingProtocol
  | unknownProtocol (proto : List UInt8)
  | expectingColon (proto : List UInt8)
  | expectingColonSlashes
  | missingHostname
  | missingPort
  | invalidPortText (port : List UInt8)
  | invalidPort (port : ℤ)
  | expectingHost
  | missingTargetHostname
  | missingSlash (targetHostname : List UInt8)
  | missingSessionName
  | unexpectedSlash (sessionName : List UInt8)
  deriving DecidableEq

def net : List UInt8 := [110, 101, 116]

def net4 : List UInt8 := net ++ [52]

def net6 : List UInt8 := net ++ [54]

/-- `://` -/
def colonSlashes : List UInt8 := [58, 47, 47]

/-- `/host/` -/
def hostDir : List UInt8 := [47, 104, 111, 115, 116, 47]

/-- The protocol, with what follows `://` -/
def parseProto (url : List UInt8) : Except UrlError (List UInt8 × List UInt8) :=
  let (proto, rest) := stringUntil [] [58] url
  if proto = [] then .error .missingProtocol
  else
    let proto := if proto = net then net4 else proto
    if proto ≠ net4 ∧ proto ≠ net6 then .error (.unknownProtocol proto)
    else if rest.head? ≠ some 58 then .error (.expectingColon proto)
    else if rest.take 3 ≠ colonSlashes then .error .expectingColonSlashes
    else .ok (proto, rest.drop 3)

def parsePort (rest : List UInt8) : Except UrlError (ℤ × List UInt8) :=
  if rest.head? = some 58 then
    let (port, rest) := stringUntil [] [47] rest.tail
    if port = [] then .error .missingPort
    else
      match scanInt port with
      | none => .error (.invalidPortText port)
      | some val => if val < 0 ∨ 65536 ≤ val then .error (.invalidPort val) else .ok (val, rest)
  else .ok (-1, rest)

def parseSession (rest : List UInt8) : Except UrlError (Option (List UInt8 × List UInt8)) :=
  if rest = [] then .ok none
  else if rest.take 6 ≠ hostDir then .error .expectingHost
  else
    let (targetHostname, rest) := stringUntil [] [47] (rest.drop 6)
    if targetHostname = [] then .error .missingTargetHostname
    else if rest = [] then .error (.missingSlash targetHostname)
    else
      let (sessionName, rest) := stringUntil [] [47] rest.tail
      if sessionName = [] then .error .missingSessionName
      else if rest.head? = some 47 then .error (.unexpectedSlash sessionName)
      else .ok (some (targetHostname, sessionName))

def parseLttngLiveUrl (url : List UInt8) : Except UrlError UrlParts := do
  let (proto, rest) ← parseProto url
  let (hostname, rest) := stringUntil [] [58, 47] rest
  if hostname = [] then throw .missingHostname
  else
    let (port, rest) ← parsePort rest
    let session ← parseSession rest
    return { proto, hostname, port, targetHostname := session.map (·.1),
             sessionName := session.map (·.2) }

/-! ## Form of a URL -/

structure UrlForm where
  proto : List UInt8
  host : List UInt8
  port : Option (List UInt8) := none
  session : Option (List UInt8 × List UInt8) := none

namespace UrlForm

def portText (u : UrlForm) : List UInt8 := u.port.elim [] (58 :: ·)

def sessionText (u : UrlForm) : List UInt8 :=
  u.session.elim [] fun session => hostDir ++ session.1 ++ 47 :: session.2

def text (u : UrlForm) : List UInt8 :=
  u.proto ++ colonSlashes ++ u.host ++ u.portText ++ u.sessionText

/-- The form, where `IsPort` tells the texts which are ports -/
structure WellFormed (IsPort : List UInt8 → Prop) (u : UrlForm) : Prop where
  proto_mem : u.proto ∈ [net, net4, net6]
  host_ne_nil : u.host ≠ []
  host_chars : ∀ ch ∈ u.host, ch ≠ 58 ∧ ch ≠ 47
  port_isPort : ∀ port ∈ u.port, IsPort port
  target_ne_nil : ∀ session ∈ u.session, session.1 ≠ [] ∧ 47 ∉ session.1
  session_ne_nil : ∀ session ∈ u.session, session.2 ≠ [] ∧ 47 ∉ session.2

/-- The parts, where `portVal` gives the values of the ports -/
def parts (portVal : List UInt8 → ℤ) (u : UrlForm) : UrlParts where
  proto := if u.proto = net then net4 else u.proto
  hostname := u.host
  port := u.port.elim (-1) portVal
  targetHostname := u.session.map (·.1)
  sessionName := u.session.map (·.2)

end UrlForm

/-- Decimal digits which denote an integer from 0 to 65535 -/
structure IsPort (port : List UInt8) : Prop where
  ne_nil : port ≠ []
  digits : ∀ ch ∈ port, asciiDecimal.isDigit ch = true
  value_lt : asciiDecimal.value port < 65536

structure ScansAsPort (port : List UInt8) : Prop where
  slash_notMem : 47 ∉ port
  scans : ∃ val, scanInt port = some val ∧ 0 ≤ val ∧ val < 65536

/-- `url` has the form of a URL of which the parts are `parts`. -/
def HasForm (url : List UInt8) (parts : UrlParts) : Prop :=
  ∃ u : UrlForm, u.WellFormed IsPort ∧ url = u.text ∧
    parts = u.parts fun port => asciiDecimal.value port

def scannedPort (port : List UInt8) : ℤ := (scanInt port).getD (-1)

/-! ## Scanning -/

structure Cut (endChars before rest : List UInt8) : Prop where
  before : ∀ ch ∈ before, ch ∉ endChars
  rest : ∀ ch ∈ rest.head?, ch ∈ endChars

theorem Cut.stringUntil_append {endChars before rest : List UInt8} (h : Cut endChars before rest)
    (hslash : 92 ∉ before ++ rest) : stringUntil [] endChars (before ++ rest) = (before, rest) := by
  induction before with
  | nil =>
    cases rest with
    | nil => rfl
    | cons ch rest =>
      have hne : ch ≠ 92 := by
        rintro rfl
        exact hslash List.mem_cons_self
      exact (stringUntil_cons _ _ hne rest).trans (if_pos (h.rest ch rfl))
  | cons ch before ih =>
    rw [List.cons_append, List.mem_cons, not_or] at hslash
    have hrest := ih ⟨fun ch' hch' => h.before ch' (List.mem_cons_of_mem _ hch'), h.rest⟩ hslash.2
    rw [List.cons_append, stringUntil_cons _ _ (Ne.symm hslash.1),
      if_neg (h.before ch List.mem_cons_self), hrest]

theorem stringUntil_cut (endChars : List UInt8) {input : List UInt8} (hslash : 92 ∉ input) :
    ∃ before rest, stringUntil [] endChars input = (before, rest) ∧ input = before ++ rest ∧
      Cut endChars before rest := by
  let p : UInt8 → Bool := fun ch => ch ∉ endChars
  have hcut : Cut endChars (input.takeWhile p) (input.dropWhile p) := by
    refine ⟨fun ch hch => by simpa [p] using List.mem_takeWhile_imp hch, fun ch hch => ?_⟩
    have hnot := List.head?_dropWhile_not p input
    rw [hch] at hnot
    simpa [p] using hnot
  have hinput := (@List.takeWhile_append_dropWhile _ p input).symm
  have hscan := hcut.stringUntil_append (by rwa [← hinput])
  rw [← hinput] at hscan
  exact ⟨_, _, hscan, hinput, hcut⟩

theorem scanInt_of_isPort {port : List UInt8} (h : IsPort port) :
    scanInt port = some (asciiDecimal.value port : ℤ) := by
  obtain ⟨ch, port', rfl⟩ := List.exists_cons_of_ne_nil h.ne_nil
  have hdigit := h.digits ch List.mem_cons_self
  have hspecial : ∀ ch : UInt8, asciiDecimal.isDigit ch = true →
      isSpace ch = false ∧ ch ≠ 45 ∧ ch ≠ 43 := by decide +kernel
  obtain ⟨hspace, hminus, hplus⟩ := hspecial ch hdigit
  have htake : (ch :: port').takeWhile asciiDecimal.isDigit = ch :: port' :=
    List.takeWhile_eq_self_iff.mpr h.digits
  have hlt := h.value_lt
  simp only [scanInt, List.dropWhile_cons, hspace, Bool.false_eq_true, if_false, List.head?_cons,
    Option.some_inj, hminus, hplus, or_self, htake, reduceCtorEq, decide_false, strtol]
  rw [min_eq_left (by omega), Int.bmod_eq_of_le_mul_two (by omega) (by omega)]

theorem IsPort.scansAsPort {port : List UInt8} (h : IsPort port) : ScansAsPort port where
  slash_notMem hmem := absurd (h.digits 47 hmem) (by decide)
  scans := ⟨_, scanInt_of_isPort h, by omega, by exact_mod_cast h.value_lt⟩

theorem ScansAsPort.ne_nil {port : List UInt8} (h : ScansAsPort port) : port ≠ [] := by
  rintro rfl
  obtain ⟨val, hval, -⟩ := h.scans
  cases hval

/-! ## Parts -/

section
variable {url rest rest' : List UInt8}

theorem parseProto_eq_ok_iff {proto : List UInt8} (hslash : 92 ∉ url) :
    parseProto url = .ok (proto, rest) ↔ ∃ text ∈ [net, net4, net6],
      url = text ++ (colonSlashes ++ rest) ∧ proto = if text = net then net4 else text := by
  constructor
  · intro h
    obtain ⟨text, rest', hscan, rfl, -⟩ := stringUntil_cut [58] hslash
    simp only [parseProto, hscan] at h
    split at h
    · cases h
    generalize hproto : (if text = net then net4 else text) = proto' at h
    split at h
    · cases h
    rename_i hknown
    split at h
    · cases h
    split at h
    · cases h
    rename_i hslashes
    cases h
    refine ⟨text, ?_, ?_, hproto.symm⟩
    · by_cases hnet : text = net
      · simp [hnet]
      · rw [if_neg hnet] at hproto
        rw [← hproto] at hknown
        simp only [List.mem_cons, List.not_mem_nil, or_false]
        tauto
    · rw [← not_not.mp hslashes, List.take_append_drop]
  · rintro ⟨text, hmem, rfl, rfl⟩
    have hcolon : ∀ text ∈ [net, net4, net6], ∀ ch ∈ text, ch ∉ [(58 : UInt8)] := by
      simp [net, net4, net6]
    have hscan := Cut.stringUntil_append ⟨hcolon text hmem, fun ch hch => by cases hch; simp⟩ hslash
    simp only [parseProto, hscan]
    simp only [List.mem_cons, List.not_mem_nil, or_false] at hmem
    rcases hmem with rfl | rfl | rfl <;> rfl

theorem parsePort_eq_ok_iff {port : ℤ} (hslash : 92 ∉ rest) :
    parsePort rest = .ok (port, rest') ↔
      (rest.head? ≠ some 58 ∧ port = -1 ∧ rest' = rest) ∨
      ∃ text, rest = 58 :: (text ++ rest') ∧ ScansAsPort text ∧ port = scannedPort text ∧
        ∀ ch ∈ rest'.head?, ch ∈ [(47 : UInt8)] := by
  constructor
  · intro h
    rw [parsePort] at h
    split at h
    · rename_i hhead
      right
      obtain ⟨tail, rfl⟩ : ∃ tail, rest = 58 :: tail := List.head?_eq_some_iff.mp hhead
      obtain ⟨text, rest'', hscan, rfl, hcut⟩ :=
        stringUntil_cut [47] (fun hmem => hslash (List.mem_cons_of_mem _ hmem))
      simp only [List.tail_cons, hscan] at h
      split at h
      · cases h
      split at h
      · cases h
      rename_i val hval
      split at h
      · cases h
      rename_i hrange
      cases h
      refine ⟨text, rfl, ⟨fun hmem => hcut.before 47 hmem (by simp), _, hval, by omega⟩, ?_,
        hcut.rest⟩
      rw [scannedPort, hval]
      rfl
    · rename_i hhead
      cases h
      exact .inl ⟨hhead, rfl, rfl⟩
  · rintro (⟨hhead, rfl, rfl⟩ | ⟨text, rfl, htext, rfl, hrest⟩)
    · rw [parsePort, if_neg hhead]
    · have hbefore : ∀ ch ∈ text, ch ∉ [(47 : UInt8)] := by
        intro ch hch hmem
        rw [List.mem_singleton.mp hmem] at hch
        exact htext.slash_notMem hch
      have hscan := Cut.stringUntil_append ⟨hbefore, hrest⟩
        (fun hmem => hslash (List.mem_cons_of_mem _ hmem))
      obtain ⟨val, hval, hrange⟩ := htext.scans
      simp only [parsePort, List.head?_cons, if_true, List.tail_cons, hscan, hval, scannedPort,
        if_neg htext.ne_nil, Option.getD_some]
      rw [if_neg (by omega)]

theorem parseSession_eq_ok_iff {session : Option (List UInt8 × List UInt8)} (hslash : 92 ∉ rest) :
    parseSession rest = .ok session ↔
      rest = session.elim [] (fun names => hostDir ++ names.1 ++ 47 :: names.2) ∧
        ∀ names ∈ session, (names.1 ≠ [] ∧ 47 ∉ names.1) ∧ names.2 ≠ [] ∧ 47 ∉ names.2 := by
  have hchars {text : List UInt8} (h : 47 ∉ text) : ∀ ch ∈ text, ch ∉ [(47 : UInt8)] := by
    intro ch hch hmem
    rw [List.mem_singleton.mp hmem] at hch
    exact h hch
  constructor
  · intro h
    rw [parseSession] at h
    split at h
    · rename_i hnil
      cases h
      exact ⟨hnil, nofun⟩
    split at h
    · cases h
    rename_i hdir
    obtain ⟨tail, rfl⟩ : ∃ tail, rest = hostDir ++ tail :=
      ⟨rest.drop 6, by rw [← not_not.mp hdir, List.take_append_drop]⟩
    have hslash' : 92 ∉ tail := fun hmem => hslash (List.mem_append_right _ hmem)
    obtain ⟨target, rest₁, hscan₁, rfl, hcut₁⟩ := stringUntil_cut [47] hslash'
    rw [show (hostDir ++ (target ++ rest₁)).drop 6 = target ++ rest₁ from rfl, hscan₁] at h
    simp only at h
    split at h
    · cases h
    rename_i htarget
    split at h
    · cases h
    rename_i hrest₁
    obtain ⟨ch, tail, rfl⟩ := List.exists_cons_of_ne_nil hrest₁
    obtain rfl := List.mem_singleton.mp (hcut₁.rest ch rfl)
    obtain ⟨name, rest₂, hscan₂, rfl, hcut₂⟩ := stringUntil_cut [47]
      (fun hmem => hslash' (List.mem_append_right _ (List.mem_cons_of_mem _ hmem)))
    simp only [List.tail_cons, hscan₂] at h
    split at h
    · cases h
    rename_i hname
    split at h
    · cases h
    rename_i hend
    cases h
    obtain rfl : rest₂ = [] := by
      cases rest₂ with
      | nil => rfl
      | cons ch rest₂ =>
        refine absurd ?_ hend
        rw [List.mem_singleton.mp (hcut₂.rest ch rfl)]
        rfl
    refine ⟨by simp, ?_⟩
    rintro _ ⟨⟩
    exact ⟨⟨htarget, fun hmem => hcut₁.before 47 hmem (by simp)⟩, hname,
      fun hmem => hcut₂.before 47 hmem (by simp)⟩
  · rintro ⟨rfl, hnames⟩
    cases session with
    | none => rfl
    | some names =>
      obtain ⟨target, name⟩ := names
      obtain ⟨⟨htarget, htarget'⟩, hname, hname'⟩ := hnames _ rfl
      simp only [Option.elim_some, List.append_assoc] at hslash ⊢
      have hslash₁ : 92 ∉ target ++ 47 :: name := fun hmem =>
        hslash (List.mem_append_right _ hmem)
      have hslash₂ : 92 ∉ name ++ [] := by
        rw [List.append_nil]
        exact fun hmem => hslash₁ (List.mem_append_right _ (List.mem_cons_of_mem _ hmem))
      have hscan₁ := Cut.stringUntil_append
        ⟨hchars htarget', fun ch hch => by cases hch; simp⟩ hslash₁
      have hscan₂ := @Cut.stringUntil_append [47] name [] ⟨hchars hname', by simp⟩ hslash₂
      rw [List.append_nil] at hscan₂
      have hdrop : (hostDir ++ (target ++ 47 :: name)).drop 6 = target ++ 47 :: name := rfl
      have htake : (hostDir ++ (target ++ 47 :: name)).take 6 = hostDir := rfl
      simp [parseSession, hdrop, htake, hscan₁, hscan₂, htarget, hname]

theorem UrlForm.head_sessionText (u : UrlForm) :
    ∀ ch ∈ u.sessionText.head?, ch ∈ [(47 : UInt8)] := by
  intro ch hch
  rw [UrlForm.sessionText] at hch
  cases hsession : u.session <;> rw [hsession] at hch <;> cases hch
  simp

section
variable {u : UrlForm} (hwf : u.WellFormed ScansAsPort)
  (htext : 92 ∉ u.text)
include hwf htext

theorem UrlForm.parseProto_text : parseProto u.text = .ok
    (if u.proto = net then net4 else u.proto, u.host ++ (u.portText ++ u.sessionText)) := by
  refine (parseProto_eq_ok_iff htext).mpr ⟨u.proto, hwf.proto_mem, ?_, rfl⟩
  simp [UrlForm.text]

theorem UrlForm.stringUntil_host :
    stringUntil [] [58, 47] (u.host ++ (u.portText ++ u.sessionText)) =
      (u.host, u.portText ++ u.sessionText) := by
  refine Cut.stringUntil_append ⟨fun ch hch => by simpa using hwf.host_chars ch hch, ?_⟩
    fun hmem => htext ?_
  · intro ch hch
    rw [UrlForm.portText, UrlForm.sessionText] at hch
    cases hport : u.port with
    | some port =>
      rw [hport] at hch
      cases hch
      simp
    | none =>
      cases hsession : u.session with
      | some session =>
        rw [hport, hsession] at hch
        cases hch
        simp
      | none =>
        rw [hport, hsession] at hch
        cases hch
  · simp only [UrlForm.text, List.append_assoc]
    simp only [List.mem_append] at hmem ⊢
    tauto

theorem UrlForm.parsePort_text : parsePort (u.portText ++ u.sessionText) =
    .ok (u.port.elim (-1) scannedPort, u.sessionText) := by
  have hslash : 92 ∉ u.portText ++ u.sessionText := by
    simp only [UrlForm.text, List.mem_append, not_or] at htext ⊢
    tauto
  rw [parsePort_eq_ok_iff hslash]
  cases hport : u.port with
  | none =>
    left
    have hnil : u.portText = [] := by rw [UrlForm.portText, hport]; rfl
    rw [hnil, List.nil_append]
    exact ⟨fun h => absurd (u.head_sessionText 58 h) (by decide), rfl, rfl⟩
  | some port =>
    right
    exact ⟨port, by rw [UrlForm.portText, hport]; rfl, hwf.port_isPort port hport, rfl,
      u.head_sessionText⟩

theorem UrlForm.parseSession_text : parseSession u.sessionText = .ok u.session := by
  have hslash : 92 ∉ u.sessionText := by
    simp only [UrlForm.text, List.mem_append, not_or] at htext
    tauto
  exact (parseSession_eq_ok_iff hslash).mpr
    ⟨rfl, fun names h => ⟨hwf.target_ne_nil names h, hwf.session_ne_nil names h⟩⟩

end

theorem parseLttngLiveUrl_eq_ok_iff {parts : UrlParts} (hslash : 92 ∉ url) :
    parseLttngLiveUrl url = .ok parts ↔
      ∃ u : UrlForm, u.WellFormed ScansAsPort ∧ url = u.text ∧ parts = u.parts scannedPort := by
  constructor
  · intro h
    obtain ⟨⟨proto, rest₁⟩, hproto, h⟩ := bind_eq_ok.mp h
    obtain ⟨text, hmem, rfl, rfl⟩ := (parseProto_eq_ok_iff hslash).mp hproto
    have hslash₁ : 92 ∉ rest₁ := fun hmem => hslash (by simp [hmem])
    obtain ⟨host, rest₂, hscan, rfl, hcut⟩ := stringUntil_cut [58, 47] hslash₁
    simp only [hscan] at h
    split at h
    · cases h
    rename_i hhost
    have hslash₂ : 92 ∉ rest₂ := fun hmem => hslash₁ (List.mem_append_right _ hmem)
    obtain ⟨⟨port, rest₃⟩, hport, h⟩ := bind_eq_ok.mp h
    obtain ⟨session, hsession, h⟩ := bind_eq_ok.mp h
    cases h
    have hhostChars : ∀ ch ∈ host, ch ≠ 58 ∧ ch ≠ 47 := by
      intro ch hch
      simpa using hcut.before ch hch
    obtain ⟨hhead, rfl, rfl⟩ | ⟨portText, rfl, hscans, rfl, -⟩ :=
      (parsePort_eq_ok_iff hslash₂).mp hport
    · obtain ⟨rfl, hnames⟩ := (parseSession_eq_ok_iff hslash₂).mp hsession
      refine ⟨⟨text, host, none, session⟩, ⟨hmem, hhost, hhostChars, nofun,
        fun names h => (hnames names h).1, fun names h => (hnames names h).2⟩, ?_, rfl⟩
      simp [UrlForm.text, UrlForm.portText, UrlForm.sessionText]
    · have hslash₃ : 92 ∉ rest₃ := fun hmem => hslash₂ (by simp [hmem])
      obtain ⟨rfl, hnames⟩ := (parseSession_eq_ok_iff hslash₃).mp hsession
      refine ⟨⟨text, host, some portText, session⟩, ⟨hmem, hhost, hhostChars, ?_,
        fun names h => (hnames names h).1, fun names h => (hnames names h).2⟩, ?_, rfl⟩
      · rintro _ ⟨⟩
        exact hscans
      · simp [UrlForm.text, UrlForm.portText, UrlForm.sessionText]
  · rintro ⟨u, hwf, rfl, rfl⟩
    refine bind_eq_ok.mpr ⟨_, UrlForm.parseProto_text hwf hslash, ?_⟩
    simp only [UrlForm.stringUntil_host hwf hslash, if_neg hwf.host_ne_nil]
    exact bind_eq_ok.mpr ⟨_, UrlForm.parsePort_text hwf hslash,
      bind_eq_ok.mpr ⟨_, UrlForm.parseSession_text hwf hslash, rfl⟩⟩

end

/-! ## Ports -/

theorem UrlForm.WellFormed.scans {u : UrlForm} (h : u.WellFormed IsPort) :
    u.WellFormed ScansAsPort where
  proto_mem := h.proto_mem
  host_ne_nil := h.host_ne_nil
  host_chars := h.host_chars
  port_isPort port hport := (h.port_isPort port hport).scansAsPort
  target_ne_nil := h.target_ne_nil
  session_ne_nil := h.session_ne_nil

theorem UrlForm.WellFormed.parts_eq {u : UrlForm} (h : u.WellFormed IsPort) :
    u.parts scannedPort = u.parts fun port => asciiDecimal.value port := by
  have hport : u.port.elim (-1) scannedPort =
      u.port.elim (-1) fun port => (asciiDecimal.value port : ℤ) := by
    cases hport : u.port with
    | none => rfl
    | some port => simp [scannedPort, scanInt_of_isPort (h.port_isPort port hport)]
  simp only [UrlForm.parts, hport]

theorem UrlForm.port_eq_of_text_eq {u u' : UrlForm} (h : u.WellFormed ScansAsPort)
    (h' : u'.WellFormed ScansAsPort) (hslash : 92 ∉ u.text) (heq : u.text = u'.text) :
    u.port = u'.port := by
  have hslash' : 92 ∉ u'.text := heq ▸ hslash
  have hproto := UrlForm.parseProto_text h hslash
  rw [heq, UrlForm.parseProto_text h' hslash'] at hproto
  obtain ⟨-, hrest⟩ := Prod.mk.inj (Except.ok.inj hproto)
  have hhost := UrlForm.stringUntil_host h hslash
  rw [← hrest, UrlForm.stringUntil_host h' hslash'] at hhost
  obtain ⟨-, hrest⟩ := Prod.mk.inj hhost
  have hscan {u : UrlForm} (h : u.WellFormed ScansAsPort) (hslash : 92 ∉ u.text) :
      u.port = if (u.portText ++ u.sessionText).head? = some 58 then
        some (stringUntil [] [47] (u.portText ++ u.sessionText).tail).1 else none := by
    cases hport : u.port with
    | none =>
      have hnil : u.portText = [] := by rw [UrlForm.portText, hport]; rfl
      have hhead : u.sessionText.head? ≠ some 58 := fun h =>
        absurd (u.head_sessionText 58 h) (by decide)
      rw [hnil, List.nil_append, if_neg hhead]
    | some port =>
      have hcons : u.portText = 58 :: port := by rw [UrlForm.portText, hport]; rfl
      have hbefore : ∀ ch ∈ port, ch ∉ [(47 : UInt8)] := by
        intro ch hch hmem
        rw [List.mem_singleton.mp hmem] at hch
        exact (h.port_isPort port hport).slash_notMem hch
      have hcut : Cut [47] port u.sessionText := ⟨hbefore, u.head_sessionText⟩
      have hport92 : 92 ∉ port ++ u.sessionText := by
        simp only [UrlForm.text, hcons, List.mem_append, List.mem_cons, not_or] at hslash ⊢
        tauto
      rw [hcons, List.cons_append, List.head?_cons, if_pos rfl, List.tail_cons,
        hcut.stringUntil_append hport92]
  rw [hscan h hslash, hscan h' hslash', hrest]

/-! ## Writing the parts back -/

def UrlParts.form (parts : UrlParts) : UrlForm where
  proto := parts.proto
  host := parts.hostname
  port := if parts.port < 0 then none else some (asciiDecimal.numeral parts.port.toNat)
  session := parts.targetHostname.bind fun target => parts.sessionName.map (target, ·)

theorem isPort_numeral {n : ℕ} (hn : n < 65536) : IsPort (asciiDecimal.numeral n) where
  ne_nil := Digits.numeral_ne_nil
  digits _ := Digits.isDigit_of_mem_numeral
  value_lt := by rwa [Digits.value_numeral]

theorem UrlForm.form_session (u : UrlForm) :
    (u.parts scannedPort).form.session = u.session := by
  cases hsession : u.session <;> simp [UrlParts.form, UrlForm.parts, hsession]

section
variable {u : UrlForm} (h : u.WellFormed ScansAsPort)
include h

theorem UrlForm.WellFormed.port_range : ∀ port ∈ u.port,
    0 ≤ scannedPort port ∧ scannedPort port < 65536 := by
  intro port hport
  obtain ⟨val, hval, hrange⟩ := (h.port_isPort port hport).scans
  rwa [scannedPort, hval]

theorem UrlForm.WellFormed.form_port : (u.parts scannedPort).form.port =
    u.port.map fun port => asciiDecimal.numeral (scannedPort port).toNat := by
  cases hport : u.port with
  | none => simp [UrlParts.form, UrlForm.parts, hport]
  | some port =>
    have hrange := h.port_range port hport
    simp [UrlParts.form, UrlForm.parts, hport, not_lt.mpr hrange.1]

theorem UrlForm.WellFormed.form_proto :
    (u.parts scannedPort).form.proto = net4 ∨ (u.parts scannedPort).form.proto = net6 := by
  have hmem := h.proto_mem
  simp only [List.mem_cons, List.not_mem_nil, or_false] at hmem
  simp only [UrlParts.form, UrlForm.parts]
  rcases hmem with hproto | hproto | hproto <;> rw [hproto] <;> decide

theorem UrlForm.WellFormed.form_wellFormed : (u.parts scannedPort).form.WellFormed IsPort where
  proto_mem := by rcases h.form_proto with hproto | hproto <;> rw [hproto] <;> simp
  host_ne_nil := h.host_ne_nil
  host_chars := h.host_chars
  port_isPort port hport := by
    rw [h.form_port] at hport
    obtain ⟨text, htext, rfl⟩ := Option.mem_map.mp hport
    have hrange := h.port_range text htext
    exact isPort_numeral (by omega)
  target_ne_nil := by
    rw [u.form_session]
    exact h.target_ne_nil
  session_ne_nil := by
    rw [u.form_session]
    exact h.session_ne_nil

theorem UrlForm.WellFormed.form_parts :
    (u.parts scannedPort).form.parts (fun port => asciiDecimal.value port) =
      u.parts scannedPort := by
  have hport : (u.parts scannedPort).form.port.elim (-1) (fun port => (asciiDecimal.value port : ℤ)) =
      (u.parts scannedPort).port := by
    rw [h.form_port, UrlForm.parts]
    cases hport : u.port with
    | none => rfl
    | some port => simp [Digits.value_numeral, (h.port_range port hport).1]
  have hproto : (if (u.parts scannedPort).form.proto = net then net4
      else (u.parts scannedPort).form.proto) = (u.parts scannedPort).proto := by
    rw [if_neg]
    · rfl
    · rcases h.form_proto with hproto | hproto <;> rw [hproto] <;> decide
  rw [UrlForm.parts, hport, hproto, u.form_session]
  rfl

theorem UrlForm.WellFormed.form_text (hslash : 92 ∉ u.text) :
    92 ∉ (u.parts scannedPort).form.text := by
  have hproto : 92 ∉ (u.parts scannedPort).form.proto := by
    rcases h.form_proto with hproto | hproto <;> rw [hproto] <;> decide
  have hport : 92 ∉ (u.parts scannedPort).form.portText := by
    rw [UrlForm.portText, h.form_port]
    cases u.port with
    | none => simp
    | some port =>
      simp only [Option.map_some, Option.elim_some, List.mem_cons, not_or]
      exact ⟨by decide, fun hmem => absurd (Digits.isDigit_of_mem_numeral hmem) (by decide)⟩
  have hsession : (u.parts scannedPort).form.sessionText = u.sessionText := by
    rw [UrlForm.sessionText, u.form_session, UrlForm.sessionText]
  have hhost : (u.parts scannedPort).form.host = u.host := rfl
  simp only [UrlForm.text, hsession, hhost, List.mem_append, not_or] at hslash ⊢
  tauto

end

/-- The code accepts the URLs which have the form exactly when no text which isn't a port is taken
as one. -/
theorem parseLttngLiveUrl_hasForm_iff {url : List UInt8} (hslash : 92 ∉ url) :
    ((∀ parts, parseLttngLiveUrl url = .ok parts ↔ HasForm url parts) ↔
      ∀ u : UrlForm, u.WellFormed ScansAsPort → url = u.text → ∀ port ∈ u.port, IsPort port) ∧
    ∀ parts, parseLttngLiveUrl url = .ok parts → parseLttngLiveUrl parts.form.text = .ok parts := by
  refine ⟨⟨fun hall u hwf htext port hport => ?_, fun hall parts => ⟨fun h => ?_, ?_⟩⟩,
    fun parts h => ?_⟩
  · obtain ⟨u', hwf', htext', -⟩ := (hall (u.parts scannedPort)).mp
      ((parseLttngLiveUrl_eq_ok_iff hslash).mpr ⟨u, hwf, htext, rfl⟩)
    rw [UrlForm.port_eq_of_text_eq hwf hwf'.scans (htext ▸ hslash) (htext.symm.trans htext')]
      at hport
    exact hwf'.port_isPort port hport
  · obtain ⟨u, hwf, htext, rfl⟩ := (parseLttngLiveUrl_eq_ok_iff hslash).mp h
    have hwf' : u.WellFormed IsPort :=
      { hwf with port_isPort := hall u hwf htext }
    exact ⟨u, hwf', htext, hwf'.parts_eq⟩
  · rintro ⟨u, hwf, htext, rfl⟩
    exact (parseLttngLiveUrl_eq_ok_iff hslash).mpr ⟨u, hwf.scans, htext, hwf.parts_eq.symm⟩
  · obtain ⟨u, hwf, rfl, rfl⟩ := (parseLttngLiveUrl_eq_ok_iff hslash).mp h
    have hform := hwf.form_wellFormed
    refine (parseLttngLiveUrl_eq_ok_iff (hwf.form_text hslash)).mpr ⟨_, hform.scans, rfl, ?_⟩
    rw [hform.parts_eq, hwf.form_parts]

/-- `net://a:5/host/b/c` -/
def sessionUrl : UrlForm where
  proto := net
  host := [97]
  port := some [53]
  session := some ([98], [99])

theorem sessionUrl_wellFormed : sessionUrl.WellFormed IsPort where
  proto_mem := by simp [sessionUrl]
  host_ne_nil := by simp [sessionUrl]
  host_chars := by simp [sessionUrl]
  port_isPort := by
    rintro _ ⟨⟩
    exact ⟨by simp, List.forall_mem_singleton.mpr (by decide), by decide⟩
  target_ne_nil := by simp [sessionUrl]
  session_ne_nil := by simp [sessionUrl]

theorem parseLttngLiveUrl_hasForm_iff_session :
    HasForm sessionUrl.text ⟨net4, [97], 5, some [98], some [99]⟩ := by
  refine ((parseLttngLiveUrl_hasForm_iff (by decide)).1.mpr (fun u hwf htext port hport => ?_) _).mp
    (by decide +kernel)
  rw [← UrlForm.port_eq_of_text_eq sessionUrl_wellFormed.scans hwf (by decide) htext] at hport
  exact sessionUrl_wellFormed.port_isPort port hport

/-- `net://a:5x` -/
def garbagePortUrl : UrlForm where
  proto := net
  host := [97]
  port := some [53, 120]

theorem garbagePortUrl_wellFormed : garbagePortUrl.WellFormed ScansAsPort where
  proto_mem := by simp [garbagePortUrl]
  host_ne_nil := by simp [garbagePortUrl]
  host_chars := by simp [garbagePortUrl]
  port_isPort := by
    rintro _ ⟨⟩
    exact ⟨by decide, 5, by decide +kernel, by decide, by decide⟩
  target_ne_nil := nofun
  session_ne_nil := nofun

/-- What follows the digits of a port is ignored. -/
theorem parseLttngLiveUrl_garbagePort :
    parseLttngLiveUrl garbagePortUrl.text = .ok ⟨net4, [97], 5, none, none⟩ ∧
      ∀ parts, ¬ HasForm garbagePortUrl.text parts := by
  refine ⟨by decide +kernel, ?_⟩
  rintro parts ⟨u, hwf, htext, -⟩
  have hport := UrlForm.port_eq_of_text_eq garbagePortUrl_wellFormed hwf.scans (by decide) htext
  have hdigits := (hwf.port_isPort [53, 120] hport.symm).digits 120 (by simp)
  exact absurd hdigits (by decide)

end Babeltrace.LiveUrl
