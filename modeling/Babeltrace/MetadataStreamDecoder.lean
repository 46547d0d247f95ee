import Babeltrace.Bitfield
import Babeltrace.ItemSeqModel

/-!
# Decoding a TSDL metadata stream

A section of a metadata stream which starts with the magic number, in either byte order, is made of
packets: a header of 37 bytes, a payload and padding up to the total length. Any other section is
text. `overread` is a copy from outside of the section.
-/

namespace Babeltrace.MetadataStreamDecoder

open ItemSeq Bitfield

/-! ## Packet headers -/

/-- `MetadataStreamDecoder::_PktHeader`, the lengths in bits. -/
structure PktHeader where
  magic : ℕ
  uuid : List UInt8
  checksum : ℕ
  contentLen : ℕ
  totalLen : ℕ
  compressionScheme : ℕ
  encryptionScheme : ℕ
  checksumScheme : ℕ
  majorVersion : ℕ
  minorVersion : ℕ
deriving DecidableEq, Repr

/-- `_PktHeader::len`, in bytes. -/
def headerLen : ℕ := 37

/-- `PktHeaderReader::_readNextInt()` at some position. -/
def readInt (byteOrder : ByteOrder) (pos n : ℕ) (buf : List UInt8) : ℕ :=
  match byteOrder with
  | .big => readStdBe n (buf.drop pos)
  | .little => readStdLe n (buf.drop pos)

/-- In the order in which `_readPktHeader()` reads them -/
def pktHeader (buf : List UInt8) (byteOrder : ByteOrder) : PktHeader where
  magic := readInt byteOrder 0 4 buf
  uuid := (buf.drop 4).take 16
  checksum := readInt byteOrder 20 4 buf
  contentLen := readInt byteOrder 24 4 buf
  totalLen := readInt byteOrder 28 4 buf
  compressionScheme := readInt byteOrder 32 1 buf
  encryptionScheme := readInt byteOrder 33 1 buf
  checksumScheme := readInt byteOrder 34 1 buf
  majorVersion := readInt byteOrder 35 1 buf
  minorVersion := readInt byteOrder 36 1 buf

/-- A header which `_validatePktHeader()` accepts: its lengths. -/
structure ValidPktHeader extends PktHeader where
  headerLen_le : 8 * headerLen ≤ contentLen
  contentLen_mod : contentLen % 8 = 0
  contentLen_le : contentLen ≤ totalLen
  totalLen_mod : totalLen % 8 = 0
deriving DecidableEq

inductive Error
  | compression
  | encryption
  | checksum
  | version
  | contentLenLtHeader
  | contentLenExtraBits
  | totalLenLtContent
  | totalLenExtraBits
  | uuidMismatch
  | expectingPacketized
  | expectingPlainText
deriving DecidableEq, Repr

def validatePktHeader (header : PktHeader) : Except Error ValidPktHeader :=
  if header.compressionScheme ≠ 0 then .error .compression
  else if header.encryptionScheme ≠ 0 then .error .encryption
  else if header.checksum ≠ 0 ∨ header.checksumScheme ≠ 0 then .error .checksum
  else if ¬ (header.majorVersion = 1 ∧ header.minorVersion = 8) then .error .version
  else if hcontent : header.contentLen < 8 * headerLen then .error .contentLenLtHeader
  else if hcontentMod : header.contentLen % 8 ≠ 0 then .error .contentLenExtraBits
  else if htotal : header.totalLen < header.contentLen then .error .totalLenLtContent
  else if htotalMod : header.totalLen % 8 ≠ 0 then .error .totalLenExtraBits
  else .ok ⟨header, Nat.le_of_not_lt hcontent, Decidable.not_not.mp hcontentMod,
    Nat.le_of_not_lt htotal, Decidable.not_not.mp htotalMod⟩

def readPktHeader (buf : List UInt8) (byteOrder : ByteOrder) : Except Error ValidPktHeader :=
  validatePktHeader (pktHeader buf byteOrder)

def ValidPktHeader.size (header : ValidPktHeader) : ℕ := header.totalLen / 8

def ValidPktHeader.payloadLen (header : ValidPktHeader) : ℕ := header.contentLen / 8 - headerLen

theorem ValidPktHeader.payloadLen_le (header : ValidPktHeader) :
    headerLen + header.payloadLen ≤ header.size := by
  have hheader := header.headerLen_le
  have hcontent := header.contentLen_le
  unfold payloadLen size
  omega

theorem ValidPktHeader.size_pos (header : ValidPktHeader) : 0 < header.size :=
  Nat.lt_of_lt_of_le (Nat.lt_add_right _ (by decide)) header.payloadLen_le

/-- The text of the packet at the beginning of `buf`. -/
def payload (header : ValidPktHeader) (buf : List UInt8) : List UInt8 :=
  (buf.drop headerLen).take header.payloadLen

/-! ## The decoder -/

/-- `MetadataStreamPacketInfo` -/
structure PacketInfo where
  byteOrder : ByteOrder
  major : ℕ
  minor : ℕ
  uuid : List UInt8
deriving DecidableEq

/-- `_MetadataStreamType` -/
inductive StreamType
  | packetized
  | plainText
deriving DecidableEq, Repr

/-- The state of a decoder between two calls of `decode()`. -/
structure Decoder where
  pktInfo : Option PacketInfo
  streamType : Option StreamType
deriving DecidableEq

def Decoder.initial : Decoder := ⟨none, none⟩

/-- How `decode()` ends. -/
inductive Outcome
  | text (text : List UInt8)
  | error (error : Error)
  | abort
  | overread
deriving DecidableEq, Repr

def expectedMagic : ℕ := 0x75d11d57

/-- To compare with the swapped number is to read in both byte orders. -/
def getByteOrder (buffer : List UInt8) : Option ByteOrder :=
  if readInt .little 0 4 buffer = expectedMagic then some .little
  else if readInt .big 0 4 buffer = expectedMagic then some .big
  else none

def setPktInfo (byteOrder : ByteOrder) (header : ValidPktHeader) (info : Option PacketInfo) :
    PacketInfo :=
  info.getD ⟨byteOrder, header.majorVersion, header.minorVersion, header.uuid⟩

def Mismatch (header : ValidPktHeader) (info : Option PacketInfo) : Prop :=
  ∃ i ∈ info, i.uuid ≠ header.uuid

instance (header : ValidPktHeader) (info : Option PacketInfo) :
    Decidable (Mismatch header info) := by
  unfold Mismatch
  infer_instance

/-- The loop of `_textFromPacketizedMetadata()`: `rest` is what the section has from the current
offset. -/
def textFromPackets (byteOrder : ByteOrder) (info : Option PacketInfo)
    (plainTextMetadata rest : List UInt8) : Outcome × Option PacketInfo :=
  if rest.length < headerLen then
    -- The end of the section, or not enough bytes for a header, which is only a warning.
    (.text plainTextMetadata, info)
  else
    match readPktHeader rest byteOrder with
    | .error e => (.error e, info)
    | .ok header =>
      if Mismatch header info then (.error .uuidMismatch, info)
      else if rest.length < headerLen + header.payloadLen then
        (.overread, some (setPktInfo byteOrder header info))
      else
        textFromPackets byteOrder (some (setPktInfo byteOrder header info))
          (plainTextMetadata ++ payload header rest) (rest.drop header.size)
termination_by rest.length
decreasing_by
  have hpos := header.size_pos
  have hlen : headerLen ≤ rest.length := Nat.le_of_not_lt (by assumption)
  simp only [headerLen] at hlen
  rw [List.length_drop]
  omega

def maybeSetMetadataStreamType (streamType : Option StreamType) (buffer : List UInt8) :
    Except Error StreamType :=
  match getByteOrder buffer, streamType with
  | some _, some .plainText => .error .expectingPacketized
  | some _, _ => .ok .packetized
  | none, some .packetized => .error .expectingPlainText
  | none, _ => .ok .plainText

def decode (d : Decoder) (buffer : List UInt8) : Outcome × Decoder :=
  if buffer.length < 4 then (.abort, d)
  else
    match maybeSetMetadataStreamType d.streamType buffer with
    | .error e => (.error e, d)
    | .ok streamType =>
      match getByteOrder buffer with
      | some byteOrder =>
        let res := textFromPackets byteOrder d.pktInfo [] buffer
        (res.1, ⟨res.2, some streamType⟩)
      | none => (.text buffer, { d with streamType := some streamType })

/-! ## The packets of a section -/

/-- The payloads of the packets wholly contained in a section, up to the first which isn't there or
isn't whole -/
inductive Payloads (byteOrder : ByteOrder) : List UInt8 → List (List UInt8) → Prop
  | nil {rest : List UInt8}
      (h : ∀ header, headerLen ≤ rest.length → readPktHeader rest byteOrder = .ok header →
        rest.length < header.size) :
      Payloads byteOrder rest []
  | cons {rest : List UInt8} {header : ValidPktHeader} {payloads : List (List UInt8)}
      (hread : readPktHeader rest byteOrder = .ok header) (hsize : header.size ≤ rest.length)
      (htail : Payloads byteOrder (rest.drop header.size) payloads) :
      Payloads byteOrder rest (payload header rest :: payloads)

/-- The text is the one of the packets of the section, or the section itself. -/
structure CallOk (d : Decoder) (buffer : List UInt8) : Prop where
  safe : (decode d buffer).1 ≠ .abort ∧ (decode d buffer).1 ≠ .overread
  packetized : ∀ byteOrder text, getByteOrder buffer = some byteOrder →
    (decode d buffer).1 = .text text →
      ∃ payloads, Payloads byteOrder buffer payloads ∧ text = payloads.flatten
  plainText : ∀ text, getByteOrder buffer = none → (decode d buffer).1 = .text text → text = buffer

inductive Fits (byteOrder : ByteOrder) : Option PacketInfo → List UInt8 → Prop
  | short {info : Option PacketInfo} {rest : List UInt8} (h : rest.length < headerLen) :
      Fits byteOrder info rest
  | invalid {info : Option PacketInfo} {rest : List UInt8} {e : Error}
      (hread : readPktHeader rest byteOrder = .error e) : Fits byteOrder info rest
  | mismatch {info : Option PacketInfo} {rest : List UInt8} {header : ValidPktHeader}
      (hread : readPktHeader rest byteOrder = .ok header) (h : Mismatch header info) :
      Fits byteOrder info rest
  | noText {info : Option PacketInfo} {rest : List UInt8} {header : ValidPktHeader}
      (hread : readPktHeader rest byteOrder = .ok header) (hsize : rest.length < header.size)
      (htext : header.payloadLen = 0) : Fits byteOrder info rest
  | whole {info : Option PacketInfo} {rest : List UInt8} {header : ValidPktHeader}
      (hread : readPktHeader rest byteOrder = .ok header) (hsize : header.size ≤ rest.length)
      (htail : Fits byteOrder (some (setPktInfo byteOrder header info)) (rest.drop header.size)) :
      Fits byteOrder info rest

structure SectionOk (d : Decoder) (buffer : List UInt8) : Prop where
  four_le : 4 ≤ buffer.length
  fits : ∀ byteOrder, getByteOrder buffer = some byteOrder → d.streamType ≠ some .plainText →
    Fits byteOrder d.pktInfo buffer

/-- What the loop owes from `rest` on. -/
def LoopOk (byteOrder : ByteOrder) (info : Option PacketInfo) (before rest : List UInt8) : Prop :=
  (textFromPackets byteOrder info before rest).1 ≠ .abort ∧
    (textFromPackets byteOrder info before rest).1 ≠ .overread ∧
    ∀ text, (textFromPackets byteOrder info before rest).1 = .text text →
      ∃ payloads, Payloads byteOrder rest payloads ∧ text = before ++ payloads.flatten

section

variable {byteOrder : ByteOrder} {info : Option PacketInfo} {before rest : List UInt8}
  {header : ValidPktHeader}

theorem textFromPackets_short (h : rest.length < headerLen) :
    textFromPackets byteOrder info before rest = (.text before, info) := by
  rw [textFromPackets, if_pos h]

theorem textFromPackets_nil :
    textFromPackets byteOrder info before [] = (.text before, info) :=
  textFromPackets_short (by decide)

theorem textFromPackets_invalid {e : Error} (hlen : headerLen ≤ rest.length)
    (hread : readPktHeader rest byteOrder = .error e) :
    textFromPackets byteOrder info before rest = (.error e, info) := by
  rw [textFromPackets, if_neg (Nat.not_lt.mpr hlen), hread]

theorem textFromPackets_ok (info : Option PacketInfo) (before : List UInt8) (hlen : headerLen ≤ rest.length)
    (hread : readPktHeader rest byteOrder = .ok header) :
    textFromPackets byteOrder info before rest =
      if Mismatch header info then (.error .uuidMismatch, info)
      else if rest.length < headerLen + header.payloadLen then
        (.overread, some (setPktInfo byteOrder header info))
      else
        textFromPackets byteOrder (some (setPktInfo byteOrder header info))
          (before ++ payload header rest) (rest.drop header.size) := by
  rw [textFromPackets, if_neg (Nat.not_lt.mpr hlen), hread]

theorem length_payload (h : headerLen + header.payloadLen ≤ rest.length) :
    (payload header rest).length = header.payloadLen := by
  rw [payload, List.length_take, List.length_drop]
  omega

theorem Payloads.of_whole {payloads : List (List UInt8)} (h : Payloads byteOrder rest payloads)
    (hread : readPktHeader rest byteOrder = .ok header) (hlen : headerLen ≤ rest.length)
    (hsize : header.size ≤ rest.length) :
    ∃ tail, Payloads byteOrder (rest.drop header.size) tail ∧
      payloads = payload header rest :: tail := by
  cases h with
  | nil h => exact absurd hsize (Nat.not_le.mpr (h header hlen hread))
  | @cons _ header' tail hread' _ htail =>
    obtain rfl : header' = header := Except.ok.inj (hread'.symm.trans hread)
    exact ⟨tail, htail, rfl⟩

theorem Payloads.of_not_whole {payloads : List (List UInt8)} (h : Payloads byteOrder rest payloads)
    (hread : readPktHeader rest byteOrder = .ok header) (hsize : rest.length < header.size) :
    payloads = [] := by
  cases h with
  | nil => rfl
  | @cons _ header' _ hread' hsize' =>
    obtain rfl : header' = header := Except.ok.inj (hread'.symm.trans hread)
    omega

theorem LoopOk.of_error {e : Error}
    (h : (textFromPackets byteOrder info before rest).1 = .error e) :
    LoopOk byteOrder info before rest := by
  rw [LoopOk, h]
  exact ⟨nofun, nofun, nofun⟩

theorem LoopOk.of_text (h : (textFromPackets byteOrder info before rest).1 = .text before)
    (hnil : Payloads byteOrder rest []) : LoopOk byteOrder info before rest := by
  rw [LoopOk, h]
  refine ⟨nofun, nofun, fun text htext => ⟨[], hnil, ?_⟩⟩
  rw [List.flatten_nil, List.append_nil, Outcome.text.inj htext]

section

variable (hlen : headerLen ≤ rest.length) (hread : readPktHeader rest byteOrder = .ok header)
  (hinfo : ¬ Mismatch header info)

include hlen hread hinfo

theorem loopOk_whole_iff (hsize : header.size ≤ rest.length) :
    LoopOk byteOrder info before rest ↔
      LoopOk byteOrder (some (setPktInfo byteOrder header info)) (before ++ payload header rest)
        (rest.drop header.size) := by
  have hpayload := header.payloadLen_le
  have hstep := textFromPackets_ok info before hlen hread
  rw [if_neg hinfo, if_neg (by omega)] at hstep
  unfold LoopOk
  rw [hstep]
  refine and_congr_right fun _ => and_congr_right fun _ => forall₂_congr fun text _ => ?_
  constructor
  · rintro ⟨payloads, hpayloads, rfl⟩
    obtain ⟨tail, htail, rfl⟩ := hpayloads.of_whole hread hlen hsize
    exact ⟨tail, htail, by rw [List.flatten_cons, List.append_assoc]⟩
  · rintro ⟨tail, htail, rfl⟩
    exact ⟨_, .cons hread hsize htail, by rw [List.flatten_cons, List.append_assoc]⟩

theorem loopOk_not_whole_iff (hsize : rest.length < header.size) :
    LoopOk byteOrder info before rest ↔ header.payloadLen = 0 := by
  have hstep := textFromPackets_ok info before hlen hread
  rw [if_neg hinfo] at hstep
  have hend : rest.drop header.size = [] := List.drop_eq_nil_of_le hsize.le
  constructor
  · intro hok
    by_cases hover : rest.length < headerLen + header.payloadLen
    · rw [if_pos hover] at hstep
      exact absurd (congrArg Prod.fst hstep) hok.2.1
    · rw [if_neg hover, hend, textFromPackets_nil] at hstep
      obtain ⟨payloads, hpayloads, htext⟩ := hok.2.2 _ (congrArg Prod.fst hstep)
      rw [hpayloads.of_not_whole hread hsize, List.flatten_nil, List.append_nil] at htext
      have hempty := List.append_right_eq_self.mp htext
      rw [← length_payload (Nat.le_of_not_lt hover), hempty, List.length_nil]
  · intro hzero
    rw [if_neg (by omega), hend, textFromPackets_nil, payload, hzero, List.take_zero,
      List.append_nil] at hstep
    refine .of_text (congrArg Prod.fst hstep) (.nil fun header' _ hread' => ?_)
    obtain rfl : header' = header := Except.ok.inj (hread'.symm.trans hread)
    exact hsize

theorem Fits.of_header (h : Fits byteOrder info rest) :
    (header.size ≤ rest.length →
      Fits byteOrder (some (setPktInfo byteOrder header info)) (rest.drop header.size)) ∧
    (rest.length < header.size → header.payloadLen = 0) := by
  cases h with
  | short h => exact absurd hlen (Nat.not_le.mpr h)
  | invalid hread' => exact nomatch hread'.symm.trans hread
  | mismatch hread' h =>
    cases hread'.symm.trans hread
    exact absurd h hinfo
  | noText hread' hsize htext =>
    cases hread'.symm.trans hread
    exact ⟨fun hsize' => absurd hsize (Nat.not_lt.mpr hsize'), fun _ => htext⟩
  | whole hread' hsize htail =>
    cases hread'.symm.trans hread
    exact ⟨fun _ => htail, fun hsize' => absurd hsize (Nat.not_le.mpr hsize')⟩

end

theorem loopOk_iff (byteOrder : ByteOrder) (info : Option PacketInfo) (before rest : List UInt8) :
    LoopOk byteOrder info before rest ↔ Fits byteOrder info rest := by
  induction hn : rest.length using Nat.strong_induction_on generalizing info before rest with
  | _ n ih =>
  subst hn
  by_cases hlen : rest.length < headerLen
  · exact iff_of_true (.of_text (congrArg Prod.fst (textFromPackets_short hlen))
      (.nil fun _ hle => absurd hle (Nat.not_le.mpr hlen))) (.short hlen)
  have hlen' := Nat.le_of_not_lt hlen
  cases hread : readPktHeader rest byteOrder with
  | error e =>
    exact iff_of_true (.of_error (congrArg Prod.fst (textFromPackets_invalid hlen' hread)))
      (.invalid hread)
  | ok header =>
    by_cases hinfo : Mismatch header info
    · refine iff_of_true (.of_error (e := Error.uuidMismatch) ?_) (.mismatch hread hinfo)
      rw [textFromPackets_ok info before hlen' hread, if_pos hinfo]
    by_cases hsize : header.size ≤ rest.length
    · have hpos := header.size_pos
      have hlt : (rest.drop header.size).length < rest.length := by
        rw [List.length_drop]
        omega
      rw [loopOk_whole_iff hlen' hread hinfo hsize, ih _ hlt _ _ _ rfl]
      exact ⟨.whole hread hsize, fun h => (h.of_header hlen' hread hinfo).1 hsize⟩
    · have hsize' := Nat.lt_of_not_le hsize
      rw [loopOk_not_whole_iff hlen' hread hinfo hsize']
      exact ⟨.noText hread hsize', fun h => (h.of_header hlen' hread hinfo).2 hsize'⟩

end

variable {d : Decoder} {buffer a : List UInt8}

theorem decode_packetized {byteOrder : ByteOrder} (hfour : 4 ≤ buffer.length)
    (horder : getByteOrder buffer = some byteOrder) (htype : d.streamType ≠ some .plainText) :
    decode d buffer =
      ((textFromPackets byteOrder d.pktInfo [] buffer).1,
        ⟨(textFromPackets byteOrder d.pktInfo [] buffer).2, some .packetized⟩) := by
  have hset : maybeSetMetadataStreamType d.streamType buffer = .ok .packetized := by
    unfold maybeSetMetadataStreamType
    rw [horder]
    cases htype' : d.streamType with
    | none => rfl
    | some streamType =>
      cases streamType with
      | packetized => rfl
      | plainText => exact absurd htype' htype
  rw [decode, if_neg (Nat.not_lt.mpr hfour), hset]
  simp only [horder]

theorem decode_packetized_plainText {byteOrder : ByteOrder} (hfour : 4 ≤ buffer.length)
    (horder : getByteOrder buffer = some byteOrder) (htype : d.streamType = some .plainText) :
    decode d buffer = (.error .expectingPacketized, d) := by
  have hset : maybeSetMetadataStreamType d.streamType buffer = .error .expectingPacketized := by
    unfold maybeSetMetadataStreamType
    rw [horder, htype]
  rw [decode, if_neg (Nat.not_lt.mpr hfour), hset]

theorem decode_plainText (hfour : 4 ≤ buffer.length) (horder : getByteOrder buffer = none) :
    (decode d buffer).1 = .text buffer ∨ (decode d buffer).1 = .error .expectingPlainText := by
  unfold decode maybeSetMetadataStreamType
  rw [if_neg (Nat.not_lt.mpr hfour), horder]
  cases htype : d.streamType with
  | none => exact .inl rfl
  | some streamType =>
    cases streamType with
    | packetized => exact .inr rfl
    | plainText => exact .inl rfl

theorem callOk_iff_sectionOk (d : Decoder) (buffer : List UInt8) : CallOk d buffer ↔ SectionOk d buffer := by
  by_cases hfour : buffer.length < 4
  · have habort : (decode d buffer).1 = .abort := by rw [decode, if_pos hfour]
    exact iff_of_false (fun h => h.safe.1 habort) fun h => absurd h.four_le (Nat.not_le.mpr hfour)
  have hfour' := Nat.le_of_not_lt hfour
  cases horder : getByteOrder buffer with
  | none =>
    refine iff_of_true ⟨?_, fun _ _ h => (nomatch horder.symm.trans h), ?_⟩
      ⟨hfour', fun _ h => (nomatch horder.symm.trans h)⟩
    · rcases decode_plainText (d := d) hfour' horder with h | h <;> rw [h] <;> exact ⟨nofun, nofun⟩
    · intro text _ htext
      rcases decode_plainText (d := d) hfour' horder with h | h
      · exact (Outcome.text.inj (h.symm.trans htext)).symm
      · exact nomatch h.symm.trans htext
  | some byteOrder =>
    by_cases htype : d.streamType = some .plainText
    · have hres := congrArg Prod.fst (decode_packetized_plainText hfour' horder htype)
      refine iff_of_true ⟨?_, fun _ _ _ h => (nomatch hres.symm.trans h),
        fun _ _ h => (nomatch hres.symm.trans h)⟩ ⟨hfour', fun _ _ h => absurd htype h⟩
      rw [hres]
      exact ⟨nofun, nofun⟩
    · have hres := congrArg Prod.fst (decode_packetized hfour' horder htype)
      have hloop := loopOk_iff byteOrder d.pktInfo [] buffer
      rw [LoopOk, ← hres] at hloop
      constructor
      · intro h
        refine ⟨hfour', fun byteOrder' horder' _ => ?_⟩
        cases horder.symm.trans horder'
        exact hloop.mp ⟨h.safe.1, h.safe.2, fun text => h.packetized _ text horder⟩
      · intro h
        obtain ⟨habort, hover, htext⟩ := hloop.mpr (h.fits _ horder htype)
        refine ⟨⟨habort, hover⟩, fun byteOrder' text horder' => ?_,
          fun _ h => (nomatch horder.symm.trans h)⟩
        cases horder.symm.trans horder'
        exact htext text

/-! ## Whole streams -/

structure Packet (byteOrder : ByteOrder) (uuid : List UInt8) where
  bytes : List UInt8
  header : ValidPktHeader
  getByteOrder_eq : getByteOrder bytes = some byteOrder
  readPktHeader_eq : readPktHeader bytes byteOrder = .ok header
  uuid_eq : header.uuid = uuid
  length_eq : bytes.length = header.size

def Packet.text {byteOrder : ByteOrder} {uuid : List UInt8} (p : Packet byteOrder uuid) :
    List UInt8 := payload p.header p.bytes

def decodeAll (d : Decoder) : List (List UInt8) → Option (List UInt8)
  | [] => some []
  | buffer :: buffers =>
    match decode d buffer with
    | (.text text, d') => (decodeAll d' buffers).map (text ++ ·)
    | _ => none

theorem readStdLe_append (n : ℕ) (b : List UInt8) (h : n ≤ a.length) :
    readStdLe n (a ++ b) = readStdLe n a := by
  induction n generalizing a with
  | zero => rfl
  | succ n ih =>
    cases a with
    | nil => simp at h
    | cons x a => simp only [readStdLe, List.cons_append, List.headD_cons, List.tail_cons,
        ih (Nat.le_of_succ_le_succ h)]

theorem readStdBe_append (n : ℕ) (b : List UInt8) (h : n ≤ a.length) :
    readStdBe n (a ++ b) = readStdBe n a := by
  induction n generalizing a with
  | zero => rfl
  | succ n ih =>
    cases a with
    | nil => simp at h
    | cons x a => simp only [readStdBe, List.cons_append, List.headD_cons, List.tail_cons,
        ih (Nat.le_of_succ_le_succ h)]

theorem readInt_append (byteOrder : ByteOrder) {pos n : ℕ} (b : List UInt8) (h : pos + n ≤ a.length)
    : readInt byteOrder pos n (a ++ b) = readInt byteOrder pos n a := by
  have hdrop : (a ++ b).drop pos = a.drop pos ++ b := List.drop_append_of_le_length (by omega)
  have hlen : n ≤ (a.drop pos).length := by
    rw [List.length_drop]
    omega
  cases byteOrder with
  | big => rw [readInt, readInt, hdrop, readStdBe_append n b hlen]
  | little => rw [readInt, readInt, hdrop, readStdLe_append n b hlen]

theorem readPktHeader_append (byteOrder : ByteOrder) (b : List UInt8) (h : headerLen ≤ a.length) :
    readPktHeader (a ++ b) byteOrder = readPktHeader a byteOrder := by
  have hint : ∀ pos n, pos + n ≤ headerLen →
      readInt byteOrder pos n (a ++ b) = readInt byteOrder pos n a :=
    fun pos n hn => readInt_append byteOrder b (hn.trans h)
  have huuid : ((a ++ b).drop 4).take 16 = (a.drop 4).take 16 := by
    simp only [headerLen] at h
    rw [List.drop_append_of_le_length (by omega), List.take_append_of_le_length]
    rw [List.length_drop]
    omega
  simp only [readPktHeader, pktHeader, huuid, hint _ _ (show 0 + 4 ≤ headerLen by decide),
    hint _ _ (show 20 + 4 ≤ headerLen by decide), hint _ _ (show 24 + 4 ≤ headerLen by decide),
    hint _ _ (show 28 + 4 ≤ headerLen by decide), hint _ _ (show 32 + 1 ≤ headerLen by decide),
    hint _ _ (show 33 + 1 ≤ headerLen by decide), hint _ _ (show 34 + 1 ≤ headerLen by decide),
    hint _ _ (show 35 + 1 ≤ headerLen by decide), hint _ _ (show 36 + 1 ≤ headerLen by decide)]

theorem getByteOrder_append (b : List UInt8) (h : 4 ≤ a.length) :
    getByteOrder (a ++ b) = getByteOrder a := by
  rw [getByteOrder, getByteOrder, readInt_append .little b (by omega),
    readInt_append .big b (by omega)]

section

variable {byteOrder : ByteOrder} {uuid : List UInt8}

theorem Packet.le_length (p : Packet byteOrder uuid) :
    headerLen + p.header.payloadLen ≤ p.bytes.length := by
  rw [p.length_eq]
  exact p.header.payloadLen_le

theorem Packet.payload_append (p : Packet byteOrder uuid) (rest : List UInt8) :
    payload p.header (p.bytes ++ rest) = p.text := by
  have hlen := p.le_length
  rw [Packet.text, payload, payload, List.drop_append_of_le_length (by omega),
    List.take_append_of_le_length]
  rw [List.length_drop]
  omega

def HasUuid (uuid : List UInt8) (info : Option PacketInfo) : Prop := ∀ i ∈ info, i.uuid = uuid

theorem HasUuid.setPktInfo {info : Option PacketInfo} (h : HasUuid uuid info)
    (p : Packet byteOrder uuid) :
    HasUuid uuid (some (MetadataStreamDecoder.setPktInfo byteOrder p.header info)) := by
  intro i hi
  cases hi
  cases info with
  | none => exact p.uuid_eq
  | some i => exact h i rfl

theorem textFromPackets_packet {info : Option PacketInfo} (h : HasUuid uuid info)
    (p : Packet byteOrder uuid) (before rest : List UInt8) :
    textFromPackets byteOrder info before (p.bytes ++ rest) =
      textFromPackets byteOrder (some (setPktInfo byteOrder p.header info)) (before ++ p.text)
        rest := by
  have hlen := p.le_length
  have hinfo : ¬ Mismatch p.header info := by
    rintro ⟨i, hi, hne⟩
    exact hne ((h i hi).trans p.uuid_eq.symm)
  have hread : readPktHeader (p.bytes ++ rest) byteOrder = .ok p.header := by
    rw [readPktHeader_append byteOrder rest (by omega), p.readPktHeader_eq]
  rw [textFromPackets_ok info before (by rw [List.length_append]; omega) hread, if_neg hinfo,
    if_neg (by rw [List.length_append]; omega), p.payload_append, ← p.length_eq, List.drop_left]

theorem textFromPackets_packets (packets : List (Packet byteOrder uuid))
    {info : Option PacketInfo} (h : HasUuid uuid info) (before : List UInt8) :
    ∃ info', HasUuid uuid info' ∧
      textFromPackets byteOrder info before (packets.flatMap Packet.bytes) =
        (.text (before ++ packets.flatMap Packet.text), info') := by
  induction packets generalizing info before with
  | nil => exact ⟨info, h, by simp [textFromPackets_nil]⟩
  | cons p packets ih =>
    obtain ⟨info', hinfo', htail⟩ := ih (h.setPktInfo p) (before ++ p.text)
    refine ⟨info', hinfo', ?_⟩
    rw [List.flatMap_cons, textFromPackets_packet h, htail, List.flatMap_cons, List.append_assoc]

def OfStream (uuid : List UInt8) (d : Decoder) : Prop :=
  HasUuid uuid d.pktInfo ∧ d.streamType ≠ some .plainText

theorem OfStream.initial (uuid : List UInt8) : OfStream uuid .initial :=
  ⟨fun _ hi => absurd hi (Option.not_mem_none _), by decide⟩

theorem OfStream.decode (h : OfStream uuid d) (packets : List (Packet byteOrder uuid))
    (hne : packets ≠ []) :
    ∃ d', OfStream uuid d' ∧ MetadataStreamDecoder.decode d (packets.flatMap Packet.bytes) =
      (.text (packets.flatMap Packet.text), d') := by
  obtain ⟨p, tail, rfl⟩ := List.exists_cons_of_ne_nil hne
  have hlen : 4 ≤ p.bytes.length := le_trans (by simp [headerLen]; omega) p.le_length
  have horder : getByteOrder ((p :: tail).flatMap Packet.bytes) = some byteOrder := by
    rw [List.flatMap_cons, getByteOrder_append _ hlen, p.getByteOrder_eq]
  have hfour : 4 ≤ ((p :: tail).flatMap Packet.bytes).length := by
    rw [List.flatMap_cons, List.length_append]
    omega
  obtain ⟨info', hinfo', hloop⟩ := textFromPackets_packets (p :: tail) h.1 []
  refine ⟨⟨info', some .packetized⟩, ⟨hinfo', nofun⟩, ?_⟩
  rw [decode_packetized hfour horder h.2, hloop, List.nil_append]

theorem OfStream.decodeAll (h : OfStream uuid d) (groups : List (List (Packet byteOrder uuid)))
    (hne : ∀ group ∈ groups, group ≠ []) :
    MetadataStreamDecoder.decodeAll d (groups.map (·.flatMap Packet.bytes)) =
      some (groups.flatten.flatMap Packet.text) := by
  induction groups generalizing d with
  | nil => rfl
  | cons group groups ih =>
    obtain ⟨d', hd', hgroup⟩ := h.decode group (hne group (by simp))
    have htail := ih hd' fun g hg => hne g (List.mem_cons_of_mem _ hg)
    rw [List.map_cons, MetadataStreamDecoder.decodeAll, hgroup]
    dsimp only
    rw [htail, Option.map_some, List.flatten_cons, List.flatMap_append]

end

/-- Every call, from any state, keeps what it owes exactly if the section has a magic number and the
packets which it accepts fit in it; and the text of a well-formed stream is the one of its packets,
however they are grouped into sections. -/
theorem decode_spec (d : Decoder) (buffer : List UInt8) :
    (CallOk d buffer ↔ SectionOk d buffer) ∧
      ∀ (byteOrder : ByteOrder) (uuid : List UInt8) (groups : List (List (Packet byteOrder uuid))),
        (∀ group ∈ groups, group ≠ []) →
          decodeAll .initial (groups.map (·.flatMap Packet.bytes)) =
            some (groups.flatten.flatMap Packet.text) :=
  ⟨callOk_iff_sectionOk d buffer, fun _ _ groups hne => (OfStream.initial _).decodeAll groups hne⟩

def headerA : List UInt8 :=
  [0x57, 0x1d, 0xd1, 0x75] ++ List.replicate 16 0 ++ List.replicate 4 0 ++ [0x30, 1, 0, 0] ++
    [0x30, 1, 0, 0] ++ [0, 0, 0, 1, 8]

/-- `headerA` as `_readPktHeader()` returns it. -/
def validHeaderA : ValidPktHeader where
  magic := expectedMagic
  uuid := List.replicate 16 0
  checksum := 0
  contentLen := 304
  totalLen := 304
  compressionScheme := 0
  encryptionScheme := 0
  checksumScheme := 0
  majorVersion := 1
  minorVersion := 8
  headerLen_le := by decide
  contentLen_mod := rfl
  contentLen_le := le_rfl
  totalLen_mod := rfl

/-- The packet of `headerA` and of the text `A`. -/
def packetA : Packet .little (List.replicate 16 0) where
  bytes := headerA ++ [65]
  header := validHeaderA
  getByteOrder_eq := by decide
  readPktHeader_eq := by rfl
  uuid_eq := rfl
  length_eq := by decide

theorem decode_spec_packetA :
    decodeAll .initial [packetA.bytes ++ packetA.bytes] = some [65, 65] ∧
      decodeAll .initial [packetA.bytes, packetA.bytes] = some [65, 65] :=
  ⟨(decode_spec .initial []).2 _ _ [[packetA, packetA]] (by simp),
    (decode_spec .initial []).2 _ _ [[packetA], [packetA]] (by simp)⟩

/-- A section of three bytes aborts the decoder, and one which only has `headerA` makes it copy the
byte which follows the section. -/
theorem decode_unsafe :
    (decode .initial [0x57, 0x1d, 0xd1]).1 = .abort ∧ (decode .initial headerA).1 = .overread ∧
      ¬ CallOk .initial [0x57, 0x1d, 0xd1] ∧ ¬ CallOk .initial headerA := by
  have hread : readPktHeader headerA .little = .ok validHeaderA := rfl
  have hover : (decode .initial headerA).1 = .overread := by
    rw [decode_packetized (by decide) (show getByteOrder headerA = some .little by decide)
        (by decide),
      textFromPackets_ok _ _ (by decide) hread, if_neg (by decide), if_pos (by decide)]
  exact ⟨by decide, hover, fun h => h.safe.1 (by decide), fun h => h.safe.2 hover⟩

end Babeltrace.MetadataStreamDecoder
