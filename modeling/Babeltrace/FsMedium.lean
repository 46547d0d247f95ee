import Mathlib
import Babeltrace.DsIndex

/-!
# Medium of a data stream file group

`fs::Medium::buf()` (`data-stream-file.cpp`) finds the index entry which contains some offset, maps
a part of its file, and returns a buffer which goes on through the next entries of the same file.
-/
namespace Babeltrace.Fs
open OrderedMerge

/-- `ctf_fs_ds_index::updateOffsetsInStream()`, from some offset -/
def updateOffsetsFrom (offsetInStream : ℕ) : DsIndex → DsIndex
  | [] => []
  | entry :: index =>
    { entry with offsetInStream } :: updateOffsetsFrom (offsetInStream + entry.packetSize) index

def updateOffsetsInStream (index : DsIndex) : DsIndex := updateOffsetsFrom 0 index

def IndexEntry.endInFile (entry : IndexEntry) : ℕ := entry.offsetInFile + entry.packetSize

/-- A data length is an unsigned 64-bit number of bits. -/
def subLen (a b : ℕ) : ℕ := (a + 2 ^ 61 - b) % 2 ^ 61

/-- `fault` is the undefined behaviour after a failed assertion or with a buffer larger than its
mapping. -/
inductive BufErr
  | noData
  | insufficientData
  | fault
  deriving DecidableEq, Repr

/-- The last of the following entries of the same file which the mapping reaches -/
def endIndexEntry (path : String) (exclEndOfMappingInFile : ℕ) (entry : IndexEntry) :
    DsIndex → IndexEntry
  | [] => entry
  | next :: index =>
    if next.path ≠ path then entry
    else if exclEndOfMappingInFile ≤ next.offsetInFile then entry
    else endIndexEntry path exclEndOfMappingInFile next index

/-- The end of the mapping of `ds_file_mmap()` -/
def exclEndOfMapping (align size requestedOffsetInFile : ℕ) : ℕ :=
  let mmapOffsetInFile := requestedOffsetInFile - requestedOffsetInFile % align
  mmapOffsetInFile + min (size - mmapOffsetInFile) (2048 * align)

/-- What remains of `buf()` once it has mapped a part of the file -/
def bufAt (align : ℕ) (content : List UInt8) (entry : IndexEntry) (following : DsIndex)
    (requestedOffsetInFile minSize : ℕ) : Except BufErr (List UInt8) :=
  let exclEndOfMappingInFile := exclEndOfMapping align content.length requestedOffsetInFile
  let exclEndOfEndEntryInFile :=
    (endIndexEntry entry.path exclEndOfMappingInFile entry following).endInFile
  let bufEndInFile := min exclEndOfMappingInFile exclEndOfEndEntryInFile
  let bufLen := subLen bufEndInFile requestedOffsetInFile
  if bufLen < minSize then .error .insufficientData
  else if exclEndOfMappingInFile < requestedOffsetInFile + bufLen then .error .fault
  else .ok ((content.drop requestedOffsetInFile).take bufLen)

/-- `buf()` once it has found the entry, before the entries `following` -/
def bufFrom (align : ℕ) (content : List UInt8) (entry : IndexEntry) (following : DsIndex)
    (requestedOffsetInStream minSize : ℕ) : Except BufErr (List UInt8) :=
  let fileStartInStream := subLen entry.offsetInStream entry.offsetInFile
  let requestedOffsetInFile := subLen requestedOffsetInStream fileStartInStream
  if content.length ≤ requestedOffsetInFile then .error .fault
  else bufAt align content entry following requestedOffsetInFile minSize

/-- The entries from the partition point which `std::lower_bound()` returns -/
def findIndexEntryForOffset (index : DsIndex) (offsetInStream : ℕ) : DsIndex :=
  index.dropWhile fun entry =>
    subLen (entry.offsetInStream + entry.packetSize) 1 < offsetInStream

def buf (align : ℕ) (files : String → List UInt8) (index : DsIndex)
    (requestedOffsetInStream minSize : ℕ) : Except BufErr (List UInt8) :=
  match findIndexEntryForOffset index requestedOffsetInStream with
  | [] => .error .noData
  | entry :: following =>
    bufFrom align (files entry.path) entry following requestedOffsetInStream minSize

/-! ## Expected bytes -/

/-- The bytes of `content` from the offset `a` to the offset `b` -/
def slice (content : List UInt8) (a b : ℕ) : List UInt8 := (content.drop a).take (b - a)

def streamBytes (files : String → List UInt8) (index : DsIndex) : List UInt8 :=
  index.flatMap fun entry => slice (files entry.path) entry.offsetInFile entry.endInFile

/-- What's expected of `buf()` for some request -/
structure BufOk (align : ℕ) (files : String → List UInt8) (index : DsIndex) (offset minSize : ℕ) :
    Prop where
  noData : buf align files index offset minSize = .error .noData ↔
    (streamBytes files index).length ≤ offset
  bytes : ∀ bytes, buf align files index offset minSize = .ok bytes →
    bytes = ((streamBytes files index).drop offset).take bytes.length ∧ minSize ≤ bytes.length
  sufficient : ∀ entry ∈ index, entry.offsetInStream ≤ offset →
    offset < entry.offsetInStream + entry.packetSize →
    offset + minSize ≤ entry.offsetInStream + entry.packetSize →
    ∃ bytes, buf align files index offset minSize = .ok bytes

def Disjoint (a b : IndexEntry) : Prop :=
  a.path = b.path → a.endInFile ≤ b.offsetInFile ∨ b.endInFile ≤ a.offsetInFile

instance (a b : IndexEntry) : Decidable (Disjoint a b) := inferInstanceAs (Decidable (_ → _))

/-- The packets are disjoint nonempty parts of files; there are less than 2^61 bytes. -/
structure PacketsOk (size : String → ℕ) (index : DsIndex) : Prop where
  nonempty : ∀ entry ∈ index, 0 < entry.packetSize
  inFile : ∀ entry ∈ index, entry.endInFile ≤ size entry.path
  size_lt : ∀ entry ∈ index, size entry.path < 2 ^ 61
  total_lt : (index.map IndexEntry.packetSize).sum < 2 ^ 61
  disjoint : index.Pairwise Disjoint

def mappingLimit (align : ℕ) (entry : IndexEntry) : ℕ :=
  entry.endInFile - 1 - (entry.endInFile - 1) % align + 2048 * align

/-- In the same file, `b` is adjacent to `a` or out of reach of any mapping for `a`. -/
def Follows (align : ℕ) (a b : IndexEntry) : Prop :=
  a.path = b.path → b.offsetInFile = a.endInFile ∨ mappingLimit align a ≤ b.offsetInFile

instance (align : ℕ) (a b : IndexEntry) : Decidable (Follows align a b) :=
  inferInstanceAs (Decidable (_ → _))

/-! ## Offsets within the data stream -/

variable {a b o offset r m : ℕ} {content : List UInt8} {pre post : DsIndex} {entry : IndexEntry}
  {path : String} {c align size mapEnd i : ℕ} {bytes : List UInt8}

theorem subLen_eq (hab : b ≤ a) (ha : a < 2 ^ 61) : subLen a b = a - b := by
  unfold subLen
  omega

theorem subLen_subLen {t f : ℕ} (hto : t ≤ o) (hf : f + (o - t) < 2 ^ 61) :
    subLen o (subLen t f) = f + (o - t) := by
  unfold subLen
  omega

theorem subLen_of_lt (hab : a < b) (hb : b < 2 ^ 61) :
    subLen a b = a + 2 ^ 61 - b := by
  unfold subLen
  omega

theorem length_slice (hb : b ≤ content.length) :
    (slice content a b).length = b - a := by
  unfold slice
  rw [List.length_take, List.length_drop]
  omega

theorem slice_append (hab : a ≤ b) (hbc : b ≤ c) :
    slice content a b ++ slice content b c = slice content a c := by
  unfold slice
  have hdrop : content.drop b = (content.drop a).drop (b - a) := by
    rw [List.drop_drop]
    congr 1
    omega
  rw [hdrop, ← List.take_add]
  congr 1
  omega

theorem drop_slice (content : List UInt8) {n : ℕ} :
    (slice content a b).drop n = slice content (a + n) b := by
  unfold slice
  rw [List.drop_take, List.drop_drop]
  congr 1
  omega

theorem slice_of_append (content : List UInt8) (hbc : b ≤ c) :
    slice content a b <+: slice content a c := by
  unfold slice
  rw [show b - a = min (b - a) (c - a) by omega, ← List.take_take]
  exact List.take_prefix _ _

theorem streamBytes_cons (files : String → List UInt8) (entry : IndexEntry) (index : DsIndex) :
    streamBytes files (entry :: index) =
      slice (files entry.path) entry.offsetInFile entry.endInFile ++ streamBytes files index :=
  List.flatMap_cons

theorem streamBytes_append (files : String → List UInt8) (index index' : DsIndex) :
    streamBytes files (index ++ index') = streamBytes files index ++ streamBytes files index' :=
  List.flatMap_append

def totalSize (index : DsIndex) : ℕ := (index.map IndexEntry.packetSize).sum

@[simp] theorem totalSize_nil : totalSize [] = 0 := rfl

@[simp] theorem totalSize_cons (entry : IndexEntry) (index : DsIndex) :
    totalSize (entry :: index) = entry.packetSize + totalSize index := List.sum_cons

@[simp] theorem totalSize_append (index index' : DsIndex) :
    totalSize (index ++ index') = totalSize index + totalSize index' := by
  simp only [totalSize, List.map_append, List.sum_append]

theorem length_streamBytes {files : String → List UInt8} {index : DsIndex}
    (h : ∀ entry ∈ index, entry.endInFile ≤ (files entry.path).length) :
    (streamBytes files index).length = totalSize index := by
  induction index with
  | nil => rfl
  | cons entry index ih =>
    obtain ⟨hentry, hindex⟩ := List.forall_mem_cons.mp h
    rw [streamBytes_cons, List.length_append, length_slice hentry, ih hindex, totalSize_cons]
    simp only [IndexEntry.endInFile]
    omega

@[simp] theorem streamBytes_updateOffsetsFrom (files : String → List UInt8) (offset : ℕ)
    (index : DsIndex) :
    streamBytes files (updateOffsetsFrom offset index) = streamBytes files index := by
  induction index generalizing offset with
  | nil => rfl
  | cons entry index ih => simp only [updateOffsetsFrom, streamBytes_cons, ih, IndexEntry.endInFile]

theorem updateOffsetsFrom_append (offset : ℕ) (index index' : DsIndex) :
    updateOffsetsFrom offset (index ++ index') =
      updateOffsetsFrom offset index ++ updateOffsetsFrom (offset + totalSize index) index' := by
  induction index generalizing offset with
  | nil => rfl
  | cons entry index ih =>
    simp only [List.cons_append, updateOffsetsFrom, ih, totalSize_cons, Nat.add_assoc]

theorem exists_packet (index : DsIndex) (ho : offset ≤ o) (hlt : o < offset + totalSize index) :
    ∃ pre entry post, index = pre ++ entry :: post ∧ offset + totalSize pre ≤ o ∧
      o < offset + totalSize pre + entry.packetSize := by
  induction index generalizing offset with
  | nil =>
    rw [totalSize_nil] at hlt
    omega
  | cons entry index ih =>
    rw [totalSize_cons] at hlt
    by_cases h : o < offset + entry.packetSize
    · exact ⟨[], entry, index, rfl, by simpa using ho, by simpa using h⟩
    · have hge : offset + entry.packetSize ≤ o := by omega
      obtain ⟨pre, next, post, rfl, hle, hlt'⟩ := ih hge (by omega)
      refine ⟨entry :: pre, next, post, rfl, ?_, ?_⟩ <;> rw [totalSize_cons] <;> omega

theorem findIndexEntryForOffset_append (index : DsIndex)
    (hpos : ∀ entry ∈ pre, 0 < entry.packetSize) (hbound : offset + totalSize pre < 2 ^ 61)
    (ho : offset + totalSize pre ≤ o) :
    findIndexEntryForOffset (updateOffsetsFrom offset pre ++ index) o =
      findIndexEntryForOffset index o := by
  induction pre generalizing offset with
  | nil => rfl
  | cons entry pre ih =>
    obtain ⟨hentry, hpre⟩ := List.forall_mem_cons.mp hpos
    rw [totalSize_cons] at hbound ho
    have hlt : subLen (offset + entry.packetSize) 1 < o := by
      rw [subLen_eq (by omega) (by omega)]
      omega
    simp only [updateOffsetsFrom, List.cons_append, findIndexEntryForOffset, List.dropWhile_cons,
      hlt, decide_true, if_true]
    exact ih hpre (by omega) (by omega)

theorem findIndexEntryForOffset_of_lt (index : DsIndex) (entry : IndexEntry)
    (hpos : 0 < entry.packetSize) (hbound : entry.offsetInStream + entry.packetSize < 2 ^ 61)
    (ho : o < entry.offsetInStream + entry.packetSize) :
    findIndexEntryForOffset (entry :: index) o = entry :: index := by
  have hge : ¬subLen (entry.offsetInStream + entry.packetSize) 1 < o := by
    rw [subLen_eq (by omega) hbound]
    omega
  simp only [findIndexEntryForOffset, List.dropWhile_cons, hge, decide_false, Bool.false_eq_true,
    if_false]

/-! ## Mappings -/

theorem alignDown_mono (align : ℕ) (hab : a ≤ b) : a - a % align ≤ b - b % align := by
  have ha := Nat.div_add_mod a align
  have hb := Nat.div_add_mod b align
  have hdiv := Nat.mul_le_mul_left align (Nat.div_le_div_right (c := align) hab)
  omega

theorem exclEndOfMapping_le_size (hr : r < size) : exclEndOfMapping align size r ≤ size := by
  simp only [exclEndOfMapping]
  omega

theorem lt_exclEndOfMapping (halign : 0 < align) (hr : r < size) :
    min (r + 9) size ≤ exclEndOfMapping align size r := by
  simp only [exclEndOfMapping]
  have := Nat.mod_lt r halign
  omega

theorem exclEndOfMapping_le_limit (size : ℕ) (hr : r < entry.endInFile) :
    exclEndOfMapping align size r ≤ mappingLimit align entry := by
  have := alignDown_mono align (show r ≤ entry.endInFile - 1 by omega)
  simp only [exclEndOfMapping, mappingLimit]
  omega

theorem mappingLimit_mono {a b : IndexEntry} (h : a.endInFile ≤ b.endInFile) :
    mappingLimit align a ≤ mappingLimit align b := by
  have := alignDown_mono align (show a.endInFile - 1 ≤ b.endInFile - 1 by omega)
  unfold mappingLimit
  omega

theorem slice_endIndexEntry (files : String → List UInt8) {following : DsIndex}
    (hpath : entry.path = path) (hchain : (entry :: following).IsChain (Follows align))
    (hlimit : mapEnd ≤ mappingLimit align entry) (hr : r ≤ entry.endInFile) :
    min mapEnd entry.endInFile ≤
        min mapEnd (endIndexEntry path mapEnd entry following).endInFile ∧
      slice (files path) r (min mapEnd (endIndexEntry path mapEnd entry following).endInFile) <+:
        slice (files path) r entry.endInFile ++ streamBytes files following := by
  induction following generalizing entry r with
  | nil =>
    refine ⟨le_refl _, ?_⟩
    exact (slice_of_append _ (Nat.min_le_right _ _)).trans (List.prefix_append _ _)
  | cons next following ih =>
    have hstop : min mapEnd entry.endInFile ≤ min mapEnd entry.endInFile ∧
        slice (files path) r (min mapEnd entry.endInFile) <+:
          slice (files path) r entry.endInFile ++ streamBytes files (next :: following) :=
      ⟨le_refl _, (slice_of_append _ (Nat.min_le_right _ _)).trans (List.prefix_append _ _)⟩
    obtain ⟨hnext, hchain⟩ := List.isChain_cons_cons.mp hchain
    simp only [endIndexEntry]
    split
    · exact hstop
    · rename_i hsame
      rw [not_not] at hsame
      split
      · exact hstop
      · rename_i hwithin
        -- the next entry is within the mapping, so that it must be adjacent
        have hadj : next.offsetInFile = entry.endInFile :=
          (hnext (hpath.trans hsame.symm)).resolve_right (by omega)
        have hend : entry.endInFile ≤ next.endInFile := by
          rw [← hadj]
          exact Nat.le_add_right _ _
        obtain ⟨hle, hprefix⟩ := ih (r := next.offsetInFile) hsame hchain
          (le_trans hlimit (mappingLimit_mono hend)) (Nat.le_add_right _ _)
        refine ⟨by omega, ?_⟩
        rw [← slice_append (b := next.offsetInFile) (by omega) (by omega), streamBytes_cons, hsame,
          hadj]
        rw [hadj] at hprefix
        exact (List.prefix_append_right_inj _).mpr hprefix

/-! ## Requests -/

/-- The files have the sizes `size`. -/
def HasSizes (size : String → ℕ) (files : String → List UInt8) : Prop :=
  ∀ path, (files path).length = size path

section

variable {align : ℕ} {size : String → ℕ} {files : String → List UInt8} {index : DsIndex}

theorem length_streamBytes_of_packetsOk (hindex : PacketsOk size index)
    (hfiles : HasSizes size files) : (streamBytes files index).length = totalSize index :=
  length_streamBytes fun entry hentry => by
    rw [hfiles]
    exact hindex.inFile entry hentry

theorem buf_of_le (align : ℕ) (files : String → List UInt8) (hindex : PacketsOk size index)
    (ho : totalSize index ≤ o) (m : ℕ) :
    buf align files (updateOffsetsInStream index) o m = .error .noData := by
  have htotal : 0 + totalSize index < 2 ^ 61 := by
    rw [Nat.zero_add]
    exact hindex.total_lt
  have hfind := findIndexEntryForOffset_append [] hindex.nonempty htotal
    (show 0 + totalSize index ≤ o by omega)
  rw [List.append_nil] at hfind
  rw [buf, updateOffsetsInStream, hfind]
  rfl

theorem buf_of_packet (hindex : PacketsOk size (pre ++ entry :: post))
    (hfiles : HasSizes size files) (hle : totalSize pre ≤ o)
    (hlt : o < totalSize pre + entry.packetSize) (m : ℕ) :
    buf align files (updateOffsetsInStream (pre ++ entry :: post)) o m =
      bufAt align (files entry.path) { entry with offsetInStream := totalSize pre }
        (updateOffsetsFrom (totalSize pre + entry.packetSize) post)
        (entry.offsetInFile + (o - totalSize pre)) m := by
  have hmem : entry ∈ pre ++ entry :: post := by simp
  have htotal : totalSize pre + (entry.packetSize + totalSize post) < 2 ^ 61 := by
    have := hindex.total_lt
    change totalSize (pre ++ entry :: post) < 2 ^ 61 at this
    rwa [totalSize_append, totalSize_cons] at this
  have hin := hindex.inFile entry hmem
  have hsize := hindex.size_lt entry hmem
  have hlen := hfiles entry.path
  simp only [IndexEntry.endInFile] at hin
  have hfind := findIndexEntryForOffset_append
    (updateOffsetsFrom (0 + totalSize pre) (entry :: post))
    (fun e he => hindex.nonempty e (List.mem_append_left _ he))
    (show 0 + totalSize pre < 2 ^ 61 by omega) (show 0 + totalSize pre ≤ o by omega)
  rw [buf, updateOffsetsInStream, updateOffsetsFrom_append, hfind]
  simp only [updateOffsetsFrom, Nat.zero_add]
  rw [findIndexEntryForOffset_of_lt _ { entry with offsetInStream := totalSize pre }
    (hindex.nonempty entry hmem) (by simp only; omega) hlt]
  simp only [bufFrom]
  rw [subLen_subLen hle (by omega), if_neg (by omega)]

theorem isChain_updateOffsetsFrom :
    (updateOffsetsFrom offset index).IsChain (Follows align) ↔ index.IsChain (Follows align) := by
  induction index generalizing offset with
  | nil => exact Iff.rfl
  | cons entry index ih =>
    cases index with
    | nil => simp [updateOffsetsFrom]
    | cons next index =>
      have hnext := @ih (offset + entry.packetSize)
      simp only [updateOffsetsFrom, List.isChain_cons_cons] at hnext ⊢
      exact and_congr Iff.rfl hnext

theorem drop_streamBytes (hindex : PacketsOk size (pre ++ entry :: post))
    (hfiles : HasSizes size files) (hle : totalSize pre ≤ o)
    (hlt : o < totalSize pre + entry.packetSize) :
    (streamBytes files (pre ++ entry :: post)).drop o =
      slice (files entry.path) (entry.offsetInFile + (o - totalSize pre)) entry.endInFile ++
        streamBytes files post := by
  have hlen : (streamBytes files pre).length = totalSize pre :=
    length_streamBytes fun e he => by
      rw [hfiles]
      exact hindex.inFile e (List.mem_append_left _ he)
  have hslice : (slice (files entry.path) entry.offsetInFile entry.endInFile).length =
      entry.packetSize := by
    rw [length_slice]
    · simp only [IndexEntry.endInFile]
      omega
    · rw [hfiles]
      exact hindex.inFile entry (by simp)
  rw [streamBytes_append, streamBytes_cons, List.drop_append, hlen,
    List.drop_eq_nil_of_le (by omega), List.nil_append, List.drop_append_of_le_length (by omega),
    drop_slice]

theorem bufAt_of_isChain (files : String → List UInt8) {following : DsIndex} (halign : 0 < align)
    (hlen : (files entry.path).length < 2 ^ 61) (hin : entry.endInFile ≤ (files entry.path).length)
    (hchain : (entry :: following).IsChain (Follows align)) (hr : r < entry.endInFile) (hm : m ≤ 9) :
    ∃ n, slice (files entry.path) r (r + n) <+:
        slice (files entry.path) r entry.endInFile ++ streamBytes files following ∧
      r + n ≤ (files entry.path).length ∧ (r + m ≤ entry.endInFile → m ≤ n) ∧
      bufAt align (files entry.path) entry following r m =
        if n < m then .error .insufficientData else .ok (slice (files entry.path) r (r + n)) := by
  set mapEnd := exclEndOfMapping align (files entry.path).length r with hmapEnd
  have hmapLe : mapEnd ≤ (files entry.path).length := exclEndOfMapping_le_size (by omega)
  have hmapGe := lt_exclEndOfMapping halign (show r < (files entry.path).length by omega)
  obtain ⟨hge, hprefix⟩ := slice_endIndexEntry files (r := r) rfl hchain
    (exclEndOfMapping_le_limit (files entry.path).length hr) (by omega)
  rw [← hmapEnd] at hmapGe hge hprefix
  set bufEnd := min mapEnd (endIndexEntry entry.path mapEnd entry following).endInFile
  have hbufLe : bufEnd ≤ mapEnd := Nat.min_le_left _ _
  have hsub : subLen bufEnd r = bufEnd - r := subLen_eq (by omega) (by omega)
  have hend : r + (bufEnd - r) = bufEnd := by omega
  refine ⟨bufEnd - r, ?_, by omega, by omega, ?_⟩
  · rw [hend]
    exact hprefix
  · have hfit : ¬mapEnd < r + (bufEnd - r) := by omega
    simp only [bufAt, ← hmapEnd]
    change (if subLen bufEnd r < m then _ else if mapEnd < r + subLen bufEnd r then _ else _) = _
    rw [hsub, if_neg hfit]
    unfold slice
    rw [hend]

theorem exists_of_mem_updateOffsetsFrom (h : entry ∈ updateOffsetsFrom offset index) :
    ∃ pre e post, index = pre ++ e :: post ∧
      entry = { e with offsetInStream := offset + totalSize pre } := by
  induction index generalizing offset with
  | nil => exact absurd h List.not_mem_nil
  | cons next index ih =>
    rcases List.mem_cons.mp h with rfl | h
    · exact ⟨[], next, index, rfl, rfl⟩
    · obtain ⟨pre, e, post, rfl, rfl⟩ := ih h
      exact ⟨next :: pre, e, post, rfl, by rw [totalSize_cons, Nat.add_assoc]⟩

theorem buf_of_isChain (halign : 0 < align) (hindex : PacketsOk size (pre ++ entry :: post))
    (hfiles : HasSizes size files) (hchain : (pre ++ entry :: post).IsChain (Follows align))
    (hle : totalSize pre ≤ o) (hlt : o < totalSize pre + entry.packetSize) (hm : m ≤ 9) :
    ∃ bytes, bytes <+: (streamBytes files (pre ++ entry :: post)).drop o ∧
      (o + m ≤ totalSize pre + entry.packetSize → m ≤ bytes.length) ∧
      buf align files (updateOffsetsInStream (pre ++ entry :: post)) o m =
        if bytes.length < m then .error .insufficientData else .ok bytes := by
  have hmem : entry ∈ pre ++ entry :: post := by simp
  have hin := hindex.inFile entry hmem
  have hlen := hfiles entry.path
  have hsize := hindex.size_lt entry hmem
  have hend : entry.endInFile = entry.offsetInFile + entry.packetSize := rfl
  have hchain' : ({ entry with offsetInStream := totalSize pre } ::
      updateOffsetsFrom (totalSize pre + entry.packetSize) post).IsChain (Follows align) :=
    isChain_updateOffsetsFrom.mpr (List.isChain_split.mp hchain).2
  obtain ⟨n, hprefix, hn, hcover, hbuf⟩ := bufAt_of_isChain files
    (r := entry.offsetInFile + (o - totalSize pre)) halign (by simp only; omega)
    (by rw [hfiles]; exact hin) hchain' (by simp only [IndexEntry.endInFile]; omega) hm
  rw [streamBytes_updateOffsetsFrom] at hprefix
  have hlength := length_slice (a := entry.offsetInFile + (o - totalSize pre)) hn
  rw [Nat.add_sub_cancel_left] at hlength
  refine ⟨slice (files entry.path) (entry.offsetInFile + (o - totalSize pre))
    (entry.offsetInFile + (o - totalSize pre) + n), ?_, ?_, ?_⟩
  · rw [drop_streamBytes hindex hfiles hle hlt]
    exact hprefix
  · intro ho
    rw [hlength]
    refine hcover ?_
    simp only [IndexEntry.endInFile]
    omega
  · rw [buf_of_packet hindex hfiles hle hlt, hlength]
    exact hbuf

theorem bufOk_of_isChain (halign : 0 < align) (hindex : PacketsOk size index)
    (hfiles : HasSizes size files) (hchain : index.IsChain (Follows align)) (o : ℕ) (hm : m ≤ 9) :
    BufOk align files (updateOffsetsInStream index) o m := by
  have hlen := length_streamBytes_of_packetsOk hindex hfiles
  have hsufficient : ∀ entry ∈ updateOffsetsInStream index, entry.offsetInStream ≤ o →
      o < entry.offsetInStream + entry.packetSize →
      o + m ≤ entry.offsetInStream + entry.packetSize →
      ∃ bytes, buf align files (updateOffsetsInStream index) o m = .ok bytes := by
    intro entry hentry hle hlt hcover
    obtain ⟨pre, e, post, rfl, rfl⟩ := exists_of_mem_updateOffsetsFrom hentry
    rw [Nat.zero_add] at hle hlt hcover
    obtain ⟨bytes, -, hbytes, hbuf⟩ := buf_of_isChain halign hindex hfiles hchain hle hlt hm
    have hm' := hbytes hcover
    exact ⟨bytes, by rw [hbuf, if_neg (by omega)]⟩
  by_cases ho : totalSize index ≤ o
  · have hbuf := buf_of_le align files hindex ho m
    refine ⟨?_, fun bytes h => ?_, hsufficient⟩
    · rw [hbuf, updateOffsetsInStream, streamBytes_updateOffsetsFrom, hlen]
      exact iff_of_true rfl ho
    · rw [hbuf] at h
      cases h
  · obtain ⟨pre, entry, post, rfl, hle, hlt⟩ :=
      exists_packet index (Nat.zero_le o) (by omega)
    rw [Nat.zero_add] at hle hlt
    obtain ⟨bytes, hprefix, -, hbuf⟩ := buf_of_isChain halign hindex hfiles hchain hle hlt hm
    refine ⟨?_, fun bytes' h => ?_, hsufficient⟩
    · rw [hbuf, updateOffsetsInStream, streamBytes_updateOffsetsFrom, hlen]
      refine iff_of_false (fun h => ?_) ho
      split at h <;> cases h
    · rw [hbuf] at h
      split at h
      · cases h
      · cases h
        rw [updateOffsetsInStream, streamBytes_updateOffsetsFrom]
        exact ⟨List.prefix_iff_eq_take.mp hprefix, by omega⟩

/-! ## Entries which aren't adjacent -/

theorem endIndexEntry_mem (path : String) (mapEnd : ℕ) (entry : IndexEntry) (following : DsIndex) :
    endIndexEntry path mapEnd entry following ∈ entry :: following := by
  induction following generalizing entry with
  | nil => exact List.mem_singleton_self entry
  | cons next following ih =>
    simp only [endIndexEntry]
    split
    · exact List.mem_cons_self
    · split
      · exact List.mem_cons_self
      · exact List.mem_cons_of_mem _ (ih next)

theorem endIndexEntry_within (following : DsIndex) (hpath : entry.path = path)
    (hentry : entry.offsetInFile < mapEnd) :
    (endIndexEntry path mapEnd entry following).path = path ∧
      (endIndexEntry path mapEnd entry following).offsetInFile < mapEnd := by
  induction following generalizing entry with
  | nil => exact ⟨hpath, hentry⟩
  | cons next following ih =>
    simp only [endIndexEntry]
    split
    · exact ⟨hpath, hentry⟩
    · rename_i hsame
      split
      · exact ⟨hpath, hentry⟩
      · rename_i hwithin
        exact ih (not_not.mp hsame) (by omega)

def markedFiles (size : String → ℕ) (offset : ℕ) (path : String) : List UInt8 :=
  (List.range (size path)).map fun i => if i = offset then 1 else 0

theorem markedFiles_hasSizes (size : String → ℕ) (offset : ℕ) :
    HasSizes size (markedFiles size offset) := fun path => by
  simp only [markedFiles, List.length_map, List.length_range]

theorem getElem?_markedFiles (hi : i < size path) :
    (markedFiles size offset path)[i]? = some (if i = offset then 1 else 0) := by
  simp only [markedFiles, List.getElem?_map, List.getElem?_range hi, Option.map_some]

theorem getElem?_slice (hi : a + i < b) : (slice content a b)[i]? = content[a + i]? := by
  unfold slice
  rw [List.getElem?_take_of_lt (by omega), List.getElem?_drop]

theorem bufAt_eq_ok {following : DsIndex} (hlen : content.length < 2 ^ 61) (hr : r < content.length)
    (h : bufAt align content entry following r m = .ok bytes) :
    let mapEnd := exclEndOfMapping align content.length r
    let bufEnd := min mapEnd (endIndexEntry entry.path mapEnd entry following).endInFile
    r + m ≤ bufEnd ∧ bytes = slice content r bufEnd := by
  intro mapEnd bufEnd
  have hmapLe : mapEnd ≤ content.length := exclEndOfMapping_le_size hr
  simp only [bufAt] at h
  change (if subLen bufEnd r < m then _ else if mapEnd < r + subLen bufEnd r then _ else _) = _ at h
  have hbufLe : bufEnd ≤ mapEnd := Nat.min_le_left _ _
  split at h
  · cases h
  · split at h
    · cases h
    · rename_i hm hfit
      have hle : r ≤ bufEnd := by
        by_contra hlt
        rw [subLen_of_lt (by omega) (by omega)] at hfit
        omega
      rw [subLen_eq hle (by omega)] at hm h
      cases h
      exact ⟨by omega, rfl⟩

theorem exists_bufEnd (entry next : IndexEntry) (following : DsIndex)
    (hlen : content.length < 2 ^ 61) (hin : entry.endInFile ≤ content.length)
    (hpath : next.path = entry.path)
    (hwithin : next.offsetInFile < exclEndOfMapping align content.length (entry.endInFile - 1))
    (hentry : 0 < entry.packetSize)
    (hfollowing : ∀ e ∈ next :: following, 0 < e.packetSize ∧ Disjoint entry e)
    (h : bufAt align content entry (next :: following) (entry.endInFile - 1) 1 = .ok bytes) :
    ∃ bufEnd, entry.endInFile < bufEnd ∧ bufEnd ≤ content.length ∧
      bytes = slice content (entry.endInFile - 1) bufEnd := by
  have hend : entry.endInFile = entry.offsetInFile + entry.packetSize := rfl
  have hr : entry.endInFile - 1 < content.length := by omega
  obtain ⟨hge, hbytes⟩ := bufAt_eq_ok hlen hr h
  set mapEnd := exclEndOfMapping align content.length (entry.endInFile - 1)
  have hmapLe : mapEnd ≤ content.length := exclEndOfMapping_le_size hr
  have hstep : endIndexEntry entry.path mapEnd entry (next :: following) =
      endIndexEntry entry.path mapEnd next following := by
    rw [endIndexEntry, if_neg (not_not.mpr hpath), if_neg (by omega)]
  rw [hstep] at hge hbytes
  -- the last entry within the mapping isn't before the packet, as the buffer covers it
  obtain ⟨hpath', hwithin'⟩ := endIndexEntry_within following hpath hwithin
  obtain ⟨hpos, hdisjoint⟩ := hfollowing _ (endIndexEntry_mem entry.path mapEnd next following)
  have hdisjoint := hdisjoint hpath'.symm
  have hlastEnd : (endIndexEntry entry.path mapEnd next following).endInFile =
    (endIndexEntry entry.path mapEnd next following).offsetInFile +
      (endIndexEntry entry.path mapEnd next following).packetSize := rfl
  exact ⟨_, by omega, by omega, hbytes⟩

theorem PacketsOk.following {a : IndexEntry} (hindex : PacketsOk size (pre ++ a :: post))
    (offset offset' : ℕ) :
    ∀ e ∈ updateOffsetsFrom offset post,
      0 < e.packetSize ∧ Disjoint { a with offsetInStream := offset' } e := by
  intro e he
  obtain ⟨pre', e, post', heq, rfl⟩ := exists_of_mem_updateOffsetsFrom he
  have hmem : e ∈ post := by
    rw [heq]
    simp
  have hdisjoint := (List.pairwise_append.mp hindex.disjoint).2.1
  exact ⟨hindex.nonempty e (List.mem_append_right _ (List.mem_cons_of_mem _ hmem)),
    (List.pairwise_cons.mp hdisjoint).1 e hmem⟩

theorem follows_of_bufOk {a b : IndexEntry} (hindex : PacketsOk size (pre ++ a :: b :: post))
    (h : ∀ files, HasSizes size files → ∀ o < 2 ^ 61, ∀ m ≤ 9,
      BufOk align files (updateOffsetsInStream (pre ++ a :: b :: post)) o m) :
    Follows align a b := by
  intro hpath
  by_contra hnot
  obtain ⟨hne, hlimit⟩ := not_or.mp hnot
  have hamem : a ∈ pre ++ a :: b :: post := by simp
  have hbmem : b ∈ pre ++ a :: b :: post := by simp
  have hapos := hindex.nonempty a hamem
  have hbpos := hindex.nonempty b hbmem
  have hain := hindex.inFile a hamem
  have hbin := hindex.inFile b hbmem
  have hsize := hindex.size_lt a hamem
  rw [← hpath] at hbin
  have haend : a.endInFile = a.offsetInFile + a.packetSize := rfl
  have hbend : b.endInFile = b.offsetInFile + b.packetSize := rfl
  set files := markedFiles size a.endInFile
  have hfiles : HasSizes size files := markedFiles_hasSizes size a.endInFile
  have hlen := hfiles a.path
  have htotal : totalSize pre + (a.packetSize + (b.packetSize + totalSize post)) < 2 ^ 61 := by
    have := hindex.total_lt
    change totalSize (pre ++ a :: b :: post) < 2 ^ 61 at this
    rwa [totalSize_append, totalSize_cons, totalSize_cons] at this
  -- a request for the last byte of the first packet
  set o := totalSize pre + (a.packetSize - 1)
  have hle : totalSize pre ≤ o := by omega
  have hlt : o < totalSize pre + a.packetSize := by omega
  have hbuf := h files hfiles o (by omega) 1 (by decide)
  have hamem' : { a with offsetInStream := totalSize pre } ∈
      updateOffsetsInStream (pre ++ a :: b :: post) := by
    rw [updateOffsetsInStream, updateOffsetsFrom_append, Nat.zero_add]
    exact List.mem_append_right _ List.mem_cons_self
  obtain ⟨bytes, hok⟩ := hbuf.sufficient _ hamem' hle hlt (by simp only; omega)
  obtain ⟨hbytes, -⟩ := hbuf.bytes bytes hok
  have hr : a.offsetInFile + (o - totalSize pre) = a.endInFile - 1 := by omega
  rw [buf_of_packet hindex hfiles hle hlt, hr] at hok
  have hwithin : b.offsetInFile <
      exclEndOfMapping align (files a.path).length (a.endInFile - 1) := by
    simp only [exclEndOfMapping]
    simp only [mappingLimit] at hlimit
    have := Nat.mod_le (a.endInFile - 1) align
    omega
  obtain ⟨bufEnd, hgt, hbufLe, rfl⟩ := exists_bufEnd { a with offsetInStream := totalSize pre }
    { b with offsetInStream := totalSize pre + a.packetSize }
    (updateOffsetsFrom (totalSize pre + a.packetSize + b.packetSize) post) (by omega)
    (by rw [hlen]; exact hain) hpath.symm hwithin hapos (hindex.following _ _) hok
  -- the byte which follows the packet in its file isn't the first one of the next packet
  change a.endInFile < bufEnd at hgt
  change slice (files a.path) (a.endInFile - 1) bufEnd = _ at hbytes
  have hone : a.endInFile - 1 + 1 = a.endInFile := by omega
  have hleft : (slice (files a.path) (a.endInFile - 1) bufEnd)[1]? = some 1 := by
    rw [getElem?_slice (by omega), hone, getElem?_markedFiles (by omega), if_pos rfl]
  have hlenSlice : (slice (files a.path) (a.endInFile - 1) a.endInFile).length = 1 := by
    rw [length_slice (by omega)]
    omega
  have hright : ((streamBytes files (pre ++ a :: b :: post)).drop o)[1]? = some 0 := by
    rw [drop_streamBytes hindex hfiles hle hlt, hr, List.getElem?_append_right (by omega),
      hlenSlice, streamBytes_cons, List.getElem?_append_left, getElem?_slice (by omega),
      Nat.add_zero, ← hpath, getElem?_markedFiles (by omega), if_neg hne]
    rw [← hpath, length_slice (by omega)]
    omega
  rw [hbytes, updateOffsetsInStream, streamBytes_updateOffsetsFrom, List.getElem?_take_of_lt,
    hright] at hleft
  · exact absurd hleft (by decide)
  · rw [length_slice hbufLe]
    change 1 < bufEnd - (a.endInFile - 1)
    omega

theorem isChain_of_bufOk (hindex : PacketsOk size index)
    (h : ∀ files, HasSizes size files → ∀ o < 2 ^ 61, ∀ m ≤ 9,
      BufOk align files (updateOffsetsInStream index) o m) :
    index.IsChain (Follows align) := by
  rw [List.isChain_iff_getElem]
  intro i hi
  have hsplit : index = index.take i ++ index[i] :: index[i + 1] :: index.drop (i + 2) := by
    rw [← List.drop_eq_getElem_cons hi, ← List.drop_eq_getElem_cons (by omega),
      List.take_append_drop]
  rw [hsplit] at hindex h
  exact follows_of_bufOk hindex h

/-- Whatever the contents of the files, the medium of a data stream file group offers the bytes of
the indexed packets if and only if each entry of which the previous one is in the same file is
adjacent to it or out of reach of its mappings. -/
theorem groupIndex_bufOk_iff (halign : 0 < align) (indexes : List DsIndex)
    (hindex : PacketsOk size (groupIndex indexes)) :
    (∀ files, HasSizes size files → ∀ o < 2 ^ 61, ∀ m ≤ 9,
        BufOk align files (updateOffsetsInStream (groupIndex indexes)) o m) ↔
      (groupIndex indexes).IsChain (Follows align) := by
  constructor
  · exact isChain_of_bufOk hindex
  · intro hchain files hfiles o _ m hm
    exact bufOk_of_isChain halign hindex hfiles hchain o hm

end

theorem groupIndex_bufOk_two_files :
    let indexes : List DsIndex :=
      [[⟨"b", 0, 0, 8, 1, 2, 0⟩], [⟨"a", 0, 0, 8, 5, 6, 0⟩, ⟨"a", 8, 8, 8, 6, 7, 1⟩]]
    PacketsOk (fun _ => 16) (groupIndex indexes) ∧
      ((∀ files, HasSizes (fun _ => 16) files → ∀ o < 2 ^ 61, ∀ m ≤ 9,
          BufOk 4096 files (updateOffsetsInStream (groupIndex indexes)) o m) ↔
        (groupIndex indexes).IsChain (Follows 4096)) ∧
      (groupIndex indexes).IsChain (Follows 4096) := by
  intro indexes
  have hindex : PacketsOk (fun _ => 16) (groupIndex indexes) :=
    ⟨by decide, by decide, by decide, by decide, by decide⟩
  exact ⟨hindex, groupIndex_bufOk_iff (by decide) indexes hindex, by decide⟩

/-- There's no data for the first byte of the packet which the merge puts first. -/
theorem buf_of_tiedFile :
    updateOffsetsInStream (groupIndex [[⟨"b", 0, 0, 8, 1, 2, 0⟩], tiedFile]) =
        [⟨"b", 0, 0, 8, 1, 2, 0⟩, ⟨"a", 8, 8, 8, 5, 7, 1⟩, ⟨"a", 0, 16, 8, 5, 6, 0⟩] ∧
      buf 4096 (fun _ => List.replicate 16 0)
        (updateOffsetsInStream (groupIndex [[⟨"b", 0, 0, 8, 1, 2, 0⟩], tiedFile])) 8 1 =
        .error .insufficientData := by
  decide +kernel

end Babeltrace.Fs
