import Babeltrace.FsMedium
import Babeltrace.ItemSeqEnds

/-!
# Building the index of a data stream file

`build_index_from_stream_file()` reads the properties of one packet after the other, each one with
an item sequence iterator over the rest of the file, and `build_index_from_idx_file()` trusts an
LTTng index file (`data-stream-file.cpp`). Lengths are unsigned 64-bit numbers of bits, which wrap
(`addLen`). A good index `Tiles` the file.
-/
namespace Babeltrace.Fs
open ItemSeq Machine

/-! ## Reading the properties of a packet -/

/-- The size isn't known yet, so that it's the rest of the file. -/
def tempIndexEntry (path : String) (content : List UInt8) (pktOffset : ℕ) : IndexEntry where
  path := path
  offsetInFile := pktOffset
  offsetInStream := pktOffset
  packetSize := content.length - pktOffset
  timestampBegin := 0
  timestampEnd := 0
  packetSeqNum := 2 ^ 64 - 1

/-- A medium which throws because of a lack of data is an error of the iterator. -/
def toBufRes : Except BufErr (List UInt8) → BufRes
  | .ok bytes => .buf bytes
  | .error _ => .noData

/-- The iterator never asks for more than 9 bytes (`_newBuf()` asserts it). -/
def tempMedium (align : ℕ) (path : String) (content : List UInt8) (pktOffset : ℕ) : Medium :=
  fun offset minSize =>
    if minSize ≤ 9 then
      toBufRes (buf align (fun _ => content) [tempIndexEntry path content pktOffset]
        (pktOffset + offset) minSize)
    else Medium.ofBytes (content.drop pktOffset) 0 offset minSize

structure PktProps where
  dataStreamCls : Option DataStreamCls
  expectedTotalLen : Option ℕ
  beginDefClk : Option ℕ
  endDefClk : Option ℕ

/-- How `readPktProps()` ends. It traps with undefined behaviour, or when it asserts that there's an
item. -/
inductive ReadRes where
  | props (p : PktProps)
  | threw
  | traps

/-- What the visitor of `readPktProps()` gets -/
def visitItems (cls : Option DataStreamCls) (o : Outcome Exc) : List Item → ReadRes
  | .dataStreamInfo info :: items => visitItems info.cls o items
  | .pktInfo info :: _ =>
    .props ⟨cls, info.expectedTotalLen, info.beginDefClkVal, info.endDefClkVal⟩
  | _ :: items => visitItems cls o items
  | [] =>
    match o with
    | .failed (.error _ _) => .threw
    | _ => .traps

/-- `readPktProps()` -/
def ReadsPktProps (tc : TraceCls) (m : Medium) (r : ReadRes) : Prop :=
  ∃ items o, Runs (reply tc) (Alone m) {} items o ∧ visitItems none o items = r

variable {m : Medium} {r : BuildRes} {pktOffset o minSize : ℕ} {index : List PktEntry}

theorem readsPktProps_unique {tc : TraceCls} {r r' : ReadRes} (h : ReadsPktProps tc m r)
    (h' : ReadsPktProps tc m r') : r = r' := by
  obtain ⟨items, o, hrun, rfl⟩ := h
  obtain ⟨items', o', hrun', rfl⟩ := h'
  obtain ⟨rfl, rfl⟩ := hrun.det hrun'
  rfl

theorem exists_runs_start (tc : TraceCls) {bytes : List UInt8}
    (hbytes : 8 * bytes.length ≤ infDataLen) (hm : m.Over bytes) (hready : m.Ready) :
    ∃ items o, Runs (reply tc) (Alone m) {} items o := by
  obtain ⟨items, o, hruns⟩ := exists_runs (P := Alone m) (Agenda.lt_wf bytes) (fun _ => rfl)
    (fun a h => Going.reply hbytes hm hready tc h) (Going.start bytes)
  exact ⟨items, o, (runs_agenda (.phase (.init rfl))).mpr hruns⟩

structure IndexEntry.InFile (content : List UInt8) (entry : IndexEntry) : Prop where
  nonempty : 0 < entry.packetSize
  end_le : entry.endInFile ≤ content.length
  sameOffset : entry.offsetInStream = entry.offsetInFile
  size_le : 8 * content.length ≤ infDataLen

variable {content : List UInt8} {entry : IndexEntry} {offset : ℕ}

theorem IndexEntry.InFile.lt_two_pow (h : entry.InFile content) : content.length < 2 ^ 61 := by
  have hsize := h.size_le
  unfold infDataLen at hsize
  omega

theorem IndexEntry.InFile.length_le (h : entry.InFile content) :
    8 * (slice content entry.offsetInFile entry.endInFile).length ≤ infDataLen := by
  have hend := h.end_le
  have hsize := h.size_le
  rw [length_slice hend]
  omega

theorem tempIndexEntry_inFile (path : String) (hsize : 8 * content.length ≤ infDataLen)
    (hoffset : pktOffset < content.length) :
    (tempIndexEntry path content pktOffset).InFile content where
  nonempty := Nat.sub_pos_of_lt hoffset
  end_le := (Nat.add_sub_cancel' hoffset.le).le
  sameOffset := rfl
  size_le := hsize

def entryMedium (align : ℕ) (files : String → List UInt8) (entry : IndexEntry) : Medium :=
  fun offset minSize =>
    if minSize ≤ 9 then
      toBufRes (buf align files [entry] (entry.offsetInFile + offset) minSize)
    else Medium.ofBytes (slice (files entry.path) entry.offsetInFile entry.endInFile) 0 offset minSize

theorem tempMedium_eq (align : ℕ) (path : String) (hoffset : pktOffset ≤ content.length) :
    tempMedium align path content pktOffset =
      entryMedium align (fun _ => content) (tempIndexEntry path content pktOffset) := by
  have hend : (tempIndexEntry path content pktOffset).endInFile = content.length :=
    Nat.add_sub_cancel' hoffset
  have hslice : slice content pktOffset content.length = content.drop pktOffset :=
    List.take_of_length_le (by rw [List.length_drop])
  unfold tempMedium entryMedium
  rw [hend]
  exact hslice ▸ rfl

theorem entryMedium_ready (align : ℕ) (files : String → List UInt8) (entry : IndexEntry) :
    (entryMedium align files entry).Ready := by
  intro offset minSize
  have hbuf : ∀ r, toBufRes r ≠ .tryAgain := by rintro (_ | _) <;> simp [toBufRes]
  by_cases hmin : minSize ≤ 9
  · rw [entryMedium, if_pos hmin]
    exact hbuf _
  · rw [entryMedium, if_neg hmin]
    exact Medium.ofBytes_ready _ _ _ _

theorem buf_eq_bufAt {align : ℕ} {files : String → List UInt8} {index following : DsIndex}
    {o r minSize : ℕ} (hfind : findIndexEntryForOffset index o = entry :: following)
    (hreq : subLen o (subLen entry.offsetInStream entry.offsetInFile) = r)
    (hr : r < (files entry.path).length) :
    buf align files index o minSize = bufAt align (files entry.path) entry following r minSize := by
  simp only [buf, hfind, bufFrom, hreq]
  rw [if_neg (Nat.not_le.mpr hr)]

section
variable {align : ℕ} {files : String → List UInt8} {entry : IndexEntry}

theorem findIndexEntryForOffset_single (hentry : entry.InFile (files entry.path)) (o : ℕ) :
    findIndexEntryForOffset [entry] o = if entry.endInFile ≤ o then [] else [entry] := by
  have hpos := hentry.nonempty
  have hsum : entry.offsetInStream + entry.packetSize = entry.endInFile := by
    rw [hentry.sameOffset, IndexEntry.endInFile]
  have hend : 1 ≤ entry.endInFile := by
    rw [← hsum]
    omega
  have hlast : subLen (entry.offsetInStream + entry.packetSize) 1 = entry.endInFile - 1 := by
    rw [hsum, subLen_eq hend (hentry.end_le.trans_lt hentry.lt_two_pow)]
  rw [findIndexEntryForOffset, List.dropWhile_cons, hlast]
  by_cases h : entry.endInFile ≤ o
  · rw [if_pos h, if_pos (decide_eq_true (by omega)), List.dropWhile_nil]
  · rw [if_neg h, if_neg fun hlt => h (by have := of_decide_eq_true hlt; omega)]

theorem buf_single (halign : 0 < align) (hentry : entry.InFile (files entry.path))
    (hoffset : entry.offsetInFile ≤ o) (ho : o < entry.endInFile) (hmin : minSize ≤ 9) :
    ∃ n, o + n ≤ entry.endInFile ∧ (o + minSize ≤ entry.endInFile → minSize ≤ n) ∧
      buf align files [entry] o minSize =
        if n < minSize then .error .insufficientData
        else .ok (slice (files entry.path) o (o + n)) := by
  have hend := hentry.end_le
  have hsize := hentry.lt_two_pow
  have hfind := findIndexEntryForOffset_single hentry o
  rw [if_neg (Nat.not_le.mpr ho)] at hfind
  obtain ⟨n, hpart, hn, hge, hbuf⟩ := bufAt_of_isChain files halign hsize hend
    (List.isChain_singleton entry) ho hmin
  have hreq : subLen o (subLen entry.offsetInStream entry.offsetInFile) = o := by
    rw [hentry.sameOffset, subLen_subLen hoffset (by omega), Nat.add_sub_cancel' hoffset]
  have hle : n ≤ entry.endInFile - o := by
    have := hpart.length_le
    rw [streamBytes, List.flatMap_nil, List.append_nil, length_slice hn, length_slice hend] at this
    omega
  exact ⟨n, by omega, hge, (buf_eq_bufAt hfind hreq (by omega)).trans hbuf⟩

theorem entryMedium_over (halign : 0 < align) (hentry : entry.InFile (files entry.path)) :
    (entryMedium align files entry).Over
      (slice (files entry.path) entry.offsetInFile entry.endInFile) := by
  intro offset minSize hmin
  have hlen := length_slice (a := entry.offsetInFile) hentry.end_le
  by_cases hsmall : minSize ≤ 9
  · rw [entryMedium, if_pos hsmall]
    by_cases ho : entry.endInFile ≤ entry.offsetInFile + offset
    · have hfind := findIndexEntryForOffset_single hentry (entry.offsetInFile + offset)
      rw [if_pos ho] at hfind
      rw [buf, hfind]
      change _ < _
      omega
    · obtain ⟨n, hn, hge, hbuf⟩ := buf_single halign hentry (Nat.le_add_right _ offset)
        (Nat.not_le.mp ho) hsmall
      rw [hbuf]
      by_cases hshort : n < minSize
      · rw [if_pos hshort]
        change _ < _
        omega
      · rw [if_neg hshort]
        have hbytes := length_slice (a := entry.offsetInFile + offset) (hn.trans hentry.end_le)
        change _ ≤ _ ∧ _ ∧ _ = _
        rw [hbytes, drop_slice, Nat.add_sub_cancel_left]
        refine ⟨by omega, by omega, ?_⟩
        unfold slice
        rw [List.take_take, Nat.add_sub_cancel_left, min_eq_left (by omega)]
  · rw [entryMedium, if_neg hsmall]
    exact Medium.ofBytes_over _ _ _ _ hmin

end

/-! ## Index of the packets which the file contains -/

def addLen (a b : ℕ) : ℕ := (a + b) % 2 ^ 64

/-- `ctf_fs_ds_index_entry`, with lengths in bits -/
structure PktEntry where
  offsetInFile : ℕ
  packetSize : ℕ
  timestampBegin : ℕ
  timestampEnd : ℕ
  packetSeqNum : ℕ
  deriving DecidableEq, Repr

inductive BuildRes where
  | returns (index : Option (List PktEntry))
  | throws
  | traps
  deriving DecidableEq, Repr

inductive Tiles (size : ℕ) : ℕ → List PktEntry → Prop
  | nil : Tiles size size []
  | cons {start : ℕ} {entry : PktEntry} {index : List PktEntry} (hstart : entry.offsetInFile = start)
      (hpos : 0 < entry.packetSize) (rest : Tiles size (start + entry.packetSize) index) :
      Tiles size start (entry :: index)

section
variable (tc : TraceCls) (align : ℕ) (path : String) (content : List UInt8)

def Reads (offset : ℕ) (r : ReadRes) : Prop :=
  ReadsPktProps tc (tempMedium align path content (offset / 8)) r

abbrev fileSize : ℕ := 8 * content.length

/-- Without a total length, the packet is the whole file. -/
def pktSize (p : PktProps) : ℕ := p.expectedTotalLen.getD (fileSize content)

def indexEntry (offset : ℕ) (p : PktProps) : PktEntry where
  offsetInFile := offset
  packetSize := pktSize content p
  timestampBegin := p.beginDefClk.getD (2 ^ 64 - 1)
  timestampEnd := p.endDefClk.getD (2 ^ 64 - 1)
  packetSeqNum := 2 ^ 64 - 1

/-- The loop of `build_index_from_stream_file()` -/
inductive Builds : ℕ → List PktEntry → BuildRes → Prop
  | beyond {offset : ℕ} {index : List PktEntry} (h : fileSize content < offset) :
      Builds offset index (.returns none)
  | noMoreData {index : List PktEntry} : Builds (fileSize content) index (.returns (some index))
  | tooLarge {offset : ℕ} {index : List PktEntry} {p : PktProps} (h : offset < fileSize content)
      (hread : Reads tc align path content offset (.props p))
      (hlarge : fileSize content < addLen offset (pktSize content p)) :
      Builds offset index (.returns none)
  | packet {offset : ℕ} {index : List PktEntry} {p : PktProps} {r : BuildRes}
      (h : offset < fileSize content) (hread : Reads tc align path content offset (.props p))
      (hfits : addLen offset (pktSize content p) ≤ fileSize content)
      (rest : Builds (addLen offset (pktSize content p)) (index ++ [indexEntry content offset p]) r) :
      Builds offset index r
  | throws {offset : ℕ} {index : List PktEntry} (h : offset < fileSize content)
      (hread : Reads tc align path content offset .threw) : Builds offset index .throws
  | traps {offset : ℕ} {index : List PktEntry} (h : offset < fileSize content)
      (hread : Reads tc align path content offset .traps) : Builds offset index .traps

/-- The offsets which the loop goes through from another one -/
inductive Reaches : ℕ → ℕ → Prop
  | refl (offset : ℕ) : Reaches offset offset
  | next {offset offset' : ℕ} {p : PktProps} (h : offset < fileSize content)
      (hread : Reads tc align path content offset (.props p))
      (hfits : addLen offset (pktSize content p) ≤ fileSize content)
      (rest : Reaches (addLen offset (pktSize content p)) offset') : Reaches offset offset'

def NoWrap (offset : ℕ) : Prop :=
  ∀ p, Reads tc align path content offset (.props p) →
    addLen offset (pktSize content p) ≤ fileSize content → offset + pktSize content p < 2 ^ 64

def Sized (offset : ℕ) : Prop :=
  ∀ r, Reads tc align path content offset r →
    r ≠ .traps ∧ ∀ p, r = .props p → 0 < pktSize content p

end

section
variable {tc : TraceCls} {align : ℕ} {path : String} {content : List UInt8}

theorem builds_of_reaches {offset' : ℕ} (h : Reaches tc align path content offset offset')
    (hbuilds : Builds tc align path content offset index r) :
    ∃ index', Builds tc align path content offset' index' r := by
  induction h generalizing index with
  | refl => exact ⟨index, hbuilds⟩
  | next h hread hfits _ ih =>
    cases hbuilds with
    | beyond h' => omega
    | noMoreData => omega
    | tooLarge _ hread' hlarge =>
      cases readsPktProps_unique hread hread'
      omega
    | packet _ hread' _ rest =>
      cases readsPktProps_unique hread hread'
      exact ih rest
    | throws _ hread' | traps _ hread' => cases readsPktProps_unique hread hread'

theorem not_builds_of_empty {p : PktProps} (hoffset : offset < fileSize content)
    (hsize : fileSize content < 2 ^ 64) (hread : Reads tc align path content offset (.props p))
    (hempty : pktSize content p = 0) : ¬ Builds tc align path content offset index r := by
  intro hbuilds
  have hsame : addLen offset (pktSize content p) = offset := by
    rw [hempty, addLen, Nat.add_zero, Nat.mod_eq_of_lt (by omega)]
  induction hbuilds with
  | beyond h => omega
  | noMoreData => omega
  | tooLarge _ hread' hlarge =>
    cases readsPktProps_unique hread hread'
    omega
  | packet _ hread' _ _ ih =>
    cases readsPktProps_unique hread hread'
    rw [hsame] at ih
    exact ih hoffset hread hsame
  | throws _ hread' | traps _ hread' => cases readsPktProps_unique hread hread'

theorem exists_reads (tc : TraceCls) (path : String) (halign : 0 < align)
    (hsize : fileSize content ≤ infDataLen) (hoffset : offset < fileSize content) :
    ∃ r, Reads tc align path content offset r := by
  unfold fileSize at hsize hoffset
  have hlt : offset / 8 < content.length := by omega
  have hentry := tempIndexEntry_inFile path hsize hlt
  have hover : (entryMedium align (fun _ => content) (tempIndexEntry path content (offset / 8))).Over _ :=
    entryMedium_over halign hentry
  obtain ⟨items, o, hruns⟩ := exists_runs_start tc hentry.length_le hover (entryMedium_ready _ _ _)
  rw [← tempMedium_eq align path hlt.le] at hruns
  exact ⟨_, items, o, hruns, rfl⟩

theorem exists_builds (halign : 0 < align) (hsize : fileSize content ≤ infDataLen)
    (hoffset : offset ≤ fileSize content)
    (hok : ∀ offset', Reaches tc align path content offset offset' → offset' < fileSize content →
      Sized tc align path content offset' ∧ NoWrap tc align path content offset')
    (index : List PktEntry) :
    ∃ r, Builds tc align path content offset index r ∧ r ≠ .traps ∧
      ∀ all, r = .returns (some all) →
        ∃ tail, all = index ++ tail ∧ Tiles (fileSize content) offset tail := by
  have hlt64 : fileSize content < 2 ^ 64 := by
    unfold infDataLen at hsize
    omega
  -- the rest of the file gets smaller with each packet
  induction hn : fileSize content - offset using Nat.strong_induction_on generalizing offset index with
  | _ n ih =>
    obtain rfl | hlt := hoffset.eq_or_lt
    · refine ⟨_, .noMoreData, by simp, fun all hall => ?_⟩
      obtain rfl : index = all := by simpa using hall
      exact ⟨[], by simp, .nil⟩
    obtain ⟨res, hread⟩ := exists_reads tc path halign hsize hlt
    obtain ⟨hsized, hnowrap⟩ := hok offset (.refl _) hlt
    obtain ⟨htraps, hpos⟩ := hsized res hread
    cases res with
    | traps => exact absurd rfl htraps
    | threw => exact ⟨.throws, .throws hlt hread, by simp, by simp⟩
    | props p =>
      by_cases hfits : addLen offset (pktSize content p) ≤ fileSize content
      · have hsum : addLen offset (pktSize content p) = offset + pktSize content p :=
          Nat.mod_eq_of_lt (hnowrap p hread hfits)
        have hpos := hpos p rfl
        obtain ⟨r, hbuilds, hr, hall⟩ := ih (fileSize content - addLen offset (pktSize content p))
          (by omega) hfits (fun offset' hreach => hok offset' (.next hlt hread hfits hreach))
          (index ++ [indexEntry content offset p]) rfl
        refine ⟨r, .packet hlt hread hfits hbuilds, hr, fun all hreturns => ?_⟩
        obtain ⟨tail, rfl, htiles⟩ := hall all hreturns
        exact ⟨indexEntry content offset p :: tail, by simp, .cons rfl hpos (hsum ▸ htiles)⟩
      · exact ⟨_, .tooLarge hlt hread (Nat.not_le.mp hfits), by simp, by simp⟩

/-- `build_index_from_stream_file()` ends without trapping, returns an index only if it tiles the
file, and never lets an offset wrap, if and only if, for all the packets which it goes through,
reading the properties doesn't trap, the size is positive, and the end of the packet has 64 bits
unless it's rejected. -/
theorem build_index_tiles_iff (tc : TraceCls) (path : String) (content : List UInt8)
    (halign : 0 < align) (hsize : fileSize content ≤ infDataLen) :
    ((∃ r, Builds tc align path content 0 [] r ∧ r ≠ .traps ∧
        ∀ index, r = .returns (some index) → Tiles (fileSize content) 0 index) ∧
      ∀ offset, Reaches tc align path content 0 offset → offset < fileSize content →
        NoWrap tc align path content offset) ↔
    ∀ offset, Reaches tc align path content 0 offset → offset < fileSize content →
      Sized tc align path content offset ∧ NoWrap tc align path content offset := by
  have hlt64 : fileSize content < 2 ^ 64 := by
    unfold infDataLen at hsize
    omega
  constructor
  · rintro ⟨⟨r, hbuilds, hr, -⟩, hnowrap⟩ offset hreach hlt
    refine ⟨fun res hread => ⟨?_, ?_⟩, hnowrap offset hreach hlt⟩
    · rintro rfl
      obtain ⟨index, hbuilds⟩ := builds_of_reaches hreach hbuilds
      cases hbuilds with
      | beyond h => omega
      | noMoreData => omega
      | traps => exact hr rfl
      | tooLarge _ hread' | packet _ hread' | throws _ hread' =>
        cases readsPktProps_unique hread hread'
    · rintro p rfl
      obtain ⟨index, hbuilds⟩ := builds_of_reaches hreach hbuilds
      refine Nat.pos_of_ne_zero fun hempty => ?_
      exact not_builds_of_empty hlt hlt64 hread hempty hbuilds
  · intro hok
    obtain ⟨r, hbuilds, hr, hall⟩ := exists_builds halign hsize (Nat.zero_le _) hok []
    refine ⟨⟨r, hbuilds, hr, fun index hindex => ?_⟩, fun offset hreach hlt => (hok offset hreach hlt).2⟩
    obtain ⟨tail, rfl, htiles⟩ := hall index hindex
    exact htiles

end

def hasTotalLen (len : ℕ) (items : List Item) (o : Outcome Exc) : Bool :=
  match visitItems none o items with
  | .props p => p.expectedTotalLen == some len && p.dataStreamCls.any (·.hasDefClkCls)
  | _ => false

theorem reads_of_evalCheck (tc : TraceCls) (align : ℕ) (path : String) (content : List UInt8)
    (offset len : ℕ)
    (h : evalCheck (reply tc) (fun _ _ => tempMedium align path content (offset / 8)) 60 {}
      (hasTotalLen len) = true) :
    ∃ p cls, Reads tc align path content offset (.props p) ∧ p.expectedTotalLen = some len ∧
      p.dataStreamCls = some cls ∧ cls.hasDefClkCls = true := by
  obtain ⟨items, o, hruns, hc⟩ :=
    evalCheck_sound (P := Alone (tempMedium align path content (offset / 8))) (fun _ _ => rfl) h
  unfold hasTotalLen at hc
  split at hc
  case h_1 p hp =>
    simp only [Bool.and_eq_true, beq_iff_eq, Option.any_eq_true] at hc
    obtain ⟨hlen, cls, hcls, hclk⟩ := hc
    exact ⟨p, cls, ⟨items, o, hruns, hp⟩, hlen, hcls, hclk⟩
  case h_2 => cases hc

theorem lens_hasOpts :
    (Fc.struct 8 [byteFc [.pktContentLen], byteFc [.pktTotalLen]]).all Fc.hasOpts = true := by
  decide

def lensTraceCls : TraceCls where
  pktHeaderFc := none
  dataStreamClss := [{
    id := 0
    pktCtxFc := some {
      align := 8
      members := [byteFc [.pktContentLen], byteFc [.pktTotalLen]]
      hasOpts := lens_hasOpts }
    eventRecordHeaderFc := none
    commonEventRecordCtxFc := none
    hasDefClkCls := true
    eventRecordClss := [] }]

/-- Two packets, of 32 and 24 bits -/
def twoPackets : List UInt8 := [16, 32, 0, 0, 16, 24, 0]

theorem build_index_tiles_iff_two :
    ∃ r, Builds lensTraceCls 1 "stream" twoPackets 0 [] r ∧ r ≠ .traps ∧
      ∀ index, r = .returns (some index) → Tiles 56 0 index := by
  obtain ⟨p₀, -, hread₀, hlen₀, -⟩ := reads_of_evalCheck lensTraceCls 1 "stream" twoPackets 0 32
    (by decide +kernel)
  obtain ⟨p₁, -, hread₁, hlen₁, -⟩ := reads_of_evalCheck lensTraceCls 1 "stream" twoPackets 32 24
    (by decide +kernel)
  have hsize₀ : pktSize twoPackets p₀ = 32 := by simp [pktSize, hlen₀]
  have hsize₁ : pktSize twoPackets p₁ = 24 := by simp [pktSize, hlen₁]
  have hok {offset : ℕ} {p : PktProps} (hread : Reads lensTraceCls 1 "stream" twoPackets offset
      (.props p)) (hpos : 0 < pktSize twoPackets p) (hend : offset + pktSize twoPackets p < 2 ^ 64) :
      Sized lensTraceCls 1 "stream" twoPackets offset ∧
        NoWrap lensTraceCls 1 "stream" twoPackets offset := by
    refine ⟨fun r hr => ?_, fun p' hread' _ => ?_⟩
    · cases readsPktProps_unique hread hr
      exact ⟨nofun, fun p' hp' => by cases hp'; exact hpos⟩
    · cases readsPktProps_unique hread hread'
      exact hend
  refine ((build_index_tiles_iff lensTraceCls "stream" twoPackets (by decide)
    (by decide)).mpr fun offset hreach hlt => ?_).1
  cases hreach with
  | refl => exact hok hread₀ (by rw [hsize₀]; decide) (by rw [hsize₀]; decide)
  | next _ hread _ rest =>
    cases readsPktProps_unique hread₀ hread
    rw [hsize₀] at rest
    cases rest with
    | refl => exact hok hread₁ (by rw [hsize₁]; decide) (by rw [hsize₁]; decide)
    | next _ hread _ rest =>
      cases readsPktProps_unique hread₁ hread
      rw [hsize₁] at rest
      cases rest with
      | refl => exact absurd hlt (by decide)
      | next h => exact absurd h (by decide)

theorem build_index_empty_packet : ¬ ∃ r, Builds lensTraceCls 1 "stream" [0, 0] 0 [] r := by
  obtain ⟨p, cls, hread, hlen, -⟩ := reads_of_evalCheck lensTraceCls 1 "stream" [0, 0] 0 0
    (by decide +kernel)
  rintro ⟨r, hbuilds⟩
  exact not_builds_of_empty (by decide) (by decide) hread (by simp [pktSize, hlen]) hbuilds

end Babeltrace.Fs
