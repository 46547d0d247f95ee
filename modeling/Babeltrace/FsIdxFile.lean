import Babeltrace.FsIndexing

/-!
# LTTng index files

`build_index_from_idx_file()` (`data-stream-file.cpp`) checks that the offsets do not decrease and
that the sum of the sizes, which may wrap, is the size of the file. Both make packets tile the file
when they are nonempty and disjoint parts of it, which nothing checks.
-/
namespace Babeltrace.Fs
open ItemSeq

/-- The big-endian number of `n` bytes at some position -/
def beAt (bytes : List UInt8) (pos n : ℕ) : ℕ :=
  ((bytes.drop pos).take n).foldl (fun val byte => 256 * val + byte.toNat) 0

structure IdxHeader where
  versionMinor : ℕ
  entrySize : ℕ
  entryCount : ℕ
  deriving DecidableEq, Repr

/-- `struct ctf_packet_index_file_hdr`; the entries have at least the size of those of version 1.0.
-/
def idxHeader (idx : List UInt8) : Option IdxHeader :=
  let entrySize := beAt idx 12 4
  if idx.length < 16 then none
  else if beAt idx 0 4 ≠ 0xC1F1DCC1 then none
  else if beAt idx 4 4 ≠ 1 then none
  else if entrySize < 56 then none
  else if (idx.length - 16) % entrySize ≠ 0 then none
  else some ⟨beAt idx 8 4, entrySize, (idx.length - 16) / entrySize⟩

section
variable (idx : List UInt8) (header : IdxHeader) (size : ℕ)

def idxEntry (pos : ℕ) : PktEntry where
  offsetInFile := 8 * beAt idx pos 8 % 2 ^ 64
  packetSize := beAt idx (pos + 8) 8
  timestampBegin := beAt idx (pos + 24) 8
  timestampEnd := beAt idx (pos + 32) 8
  packetSeqNum := if 1 ≤ header.versionMinor then beAt idx (pos + 64) 8 else 2 ^ 64 - 1

/-- Reading a sequence number which the file doesn't have is undefined. -/
def idxLoop : (count pos : ℕ) → (prev : Option PktEntry) → (totalPacketsSize : ℕ) →
    List PktEntry → BuildRes
  | 0, _, _, totalPacketsSize, index =>
    if size ≠ totalPacketsSize then .returns none else .returns (some index)
  | count + 1, pos, prev, totalPacketsSize, index =>
    let entry := idxEntry idx header pos
    if entry.packetSize % 8 ≠ 0 then .returns none
    else if prev.any (entry.offsetInFile < ·.offsetInFile) then .returns none
    else if entry.timestampEnd < entry.timestampBegin then .returns none
    else if 1 ≤ header.versionMinor ∧ idx.length < pos + 72 then .traps
    else idxLoop count (pos + header.entrySize) (some entry)
      (addLen totalPacketsSize entry.packetSize) (index ++ [entry])

end

section
variable (tc : TraceCls) (align : ℕ) (path : String) (content idx : List UInt8)

/-- `build_index_from_idx_file()`. The first packet of the data stream file tells the data stream
class, which must have a default clock class. -/
inductive BuildsFromIdx : BuildRes → Prop
  | badHeader (h : idxHeader idx = none) : BuildsFromIdx (.returns none)
  | throws {header : IdxHeader} (h : idxHeader idx = some header)
      (hread : Reads tc align path content 0 .threw) : BuildsFromIdx .throws
  | traps {header : IdxHeader} (h : idxHeader idx = some header)
      (hread : Reads tc align path content 0 .traps) : BuildsFromIdx .traps
  | noCls {header : IdxHeader} {p : PktProps} (h : idxHeader idx = some header)
      (hread : Reads tc align path content 0 (.props p)) (hcls : p.dataStreamCls = none) :
      BuildsFromIdx .traps
  | noClkCls {header : IdxHeader} {p : PktProps} {cls : DataStreamCls}
      (h : idxHeader idx = some header) (hread : Reads tc align path content 0 (.props p))
      (hcls : p.dataStreamCls = some cls) (hclk : cls.hasDefClkCls = false) :
      BuildsFromIdx (.returns none)
  | entries {header : IdxHeader} {p : PktProps} {cls : DataStreamCls}
      (h : idxHeader idx = some header) (hread : Reads tc align path content 0 (.props p))
      (hcls : p.dataStreamCls = some cls) (hclk : cls.hasDefClkCls = true) :
      BuildsFromIdx (idxLoop idx header (fileSize content) header.entryCount 16 none 0 [])

end

/-- The entries which the index file has -/
def idxEntries (idx : List UInt8) (header : IdxHeader) : List PktEntry :=
  (List.range header.entryCount).map fun i => idxEntry idx header (16 + i * header.entrySize)

def PktEntry.endInFile (entry : PktEntry) : ℕ := entry.offsetInFile + entry.packetSize

/-- Packets which are nonempty and disjoint parts of a data stream file, in any order -/
structure Apart (size : ℕ) (entries : List PktEntry) : Prop where
  pos : ∀ entry ∈ entries, 0 < entry.packetSize
  within : ∀ entry ∈ entries, entry.endInFile ≤ size
  disjoint : entries.Pairwise fun entry entry' =>
    entry.endInFile ≤ entry'.offsetInFile ∨ entry'.endInFile ≤ entry.offsetInFile

def PktEntry.place (entry : PktEntry) : ℕ × ℕ := (entry.offsetInFile, entry.packetSize)

def Truthful (tc : TraceCls) (align : ℕ) (path : String) (content : List UInt8)
    (index : List PktEntry) : Prop :=
  ∀ entry ∈ index, ∃ p, Reads tc align path content entry.offsetInFile (.props p) ∧
    p.expectedTotalLen = some entry.packetSize

/-! ## What the checks tell -/

variable {size start : ℕ} {index : List PktEntry}

def pktsSize (entries : List PktEntry) : ℕ := (entries.map PktEntry.packetSize).sum

/-- What the loop checks of the entries which it reads, `prev` being the one before them -/
structure Checked (size total : ℕ) (prev : Option PktEntry) (entries : List PktEntry) : Prop where
  sorted : ((prev.toList ++ entries).map PktEntry.offsetInFile).IsChain (· ≤ ·)
  sum : (total + pktsSize entries) % 2 ^ 64 = size

theorem idxLoop_returns {idx : List UInt8} {header : IdxHeader} {count pos total : ℕ}
    {prev : Option PktEntry} {all : List PktEntry} (htotal : total < 2 ^ 64)
    (h : idxLoop idx header size count pos prev total index = .returns (some all)) :
    ∃ tail, all = index ++ tail ∧ Checked size total prev tail ∧
      tail = (List.range count).map fun i => idxEntry idx header (pos + i * header.entrySize) := by
  induction count generalizing pos prev total index with
  | zero =>
    unfold idxLoop at h
    split at h
    · cases h
    · rename_i heq
      cases h
      refine ⟨[], by simp, ⟨?_, ?_⟩, rfl⟩
      · cases prev <;> simp
      · exact (Nat.mod_eq_of_lt htotal).trans (not_not.mp heq).symm
  | succ count ih =>
    simp only [idxLoop] at h
    split at h
    · cases h
    split at h
    · cases h
    split at h
    · cases h
    split at h
    · cases h
    rename_i hprev _ _
    obtain ⟨tail, rfl, ⟨hsorted, hsum⟩, htail⟩ := ih (Nat.mod_lt _ (by decide)) h
    refine ⟨idxEntry idx header pos :: tail, by simp, ⟨?_, ?_⟩, ?_⟩
    · cases prev with
      | none => exact hsorted
      | some prev =>
        refine List.IsChain.cons_cons ?_ hsorted
        simpa using hprev
    · simp only [pktsSize, List.map_cons, List.sum_cons, Nat.mod_add_mod,
        Nat.add_assoc] at hsum ⊢
      exact hsum
    · rw [List.range_succ_eq_map, List.map_cons, List.map_map, htail]
      refine congrArg₂ _ (by simp) (List.map_congr_left fun i _ => ?_)
      rw [Function.comp_apply, Nat.succ_mul, Nat.add_assoc pos, Nat.add_comm header.entrySize]

/-- Sorted packets which are apart follow each other. -/
theorem Apart.follow (h : Apart size index)
    (hsorted : (index.map PktEntry.offsetInFile).IsChain (· ≤ ·)) :
    index.Pairwise fun entry entry' => entry.endInFile ≤ entry'.offsetInFile := by
  have hle := List.pairwise_map.mp (List.isChain_iff_pairwise.mp hsorted)
  refine (hle.and h.disjoint).imp_of_mem fun {entry entry'} _ hmem' hboth => ?_
  have hpos := h.pos entry' hmem'
  refine hboth.2.resolve_right fun hend => ?_
  have hle' := hboth.1
  unfold PktEntry.endInFile at hend
  omega

section

variable (hfollow : index.Pairwise fun entry entry' => entry.endInFile ≤ entry'.offsetInFile)
  (hwithin : ∀ entry ∈ index, start ≤ entry.offsetInFile ∧ entry.endInFile ≤ size)

include hfollow hwithin

theorem pktsSize_le (hstart : start ≤ size) : start + pktsSize index ≤ size := by
  induction index generalizing start with
  | nil => exact hstart
  | cons entry index ih =>
    obtain ⟨hfirst, hfollow⟩ := List.pairwise_cons.mp hfollow
    obtain ⟨hentry, hwithin⟩ := List.forall_mem_cons.mp hwithin
    have hrest := ih hfollow (fun e he => ⟨hfirst e he, (hwithin e he).2⟩) hentry.2
    simp only [pktsSize, List.map_cons, List.sum_cons, PktEntry.endInFile] at hrest hentry ⊢
    omega

/-- Packets which follow each other within a part of a file and have its size leave no gap. -/
theorem tiles_of_follow (hpos : ∀ entry ∈ index, 0 < entry.packetSize)
    (hsum : start + pktsSize index = size) : Tiles size start index := by
  induction index generalizing start with
  | nil =>
    obtain rfl : start = size := hsum
    exact .nil
  | cons entry index ih =>
    obtain ⟨hfirst, hfollow⟩ := List.pairwise_cons.mp hfollow
    obtain ⟨hentry, hwithin⟩ := List.forall_mem_cons.mp hwithin
    obtain ⟨hentryPos, hpos⟩ := List.forall_mem_cons.mp hpos
    have hwithin' : ∀ e ∈ index, entry.endInFile ≤ e.offsetInFile ∧ e.endInFile ≤ size :=
      fun e he => ⟨hfirst e he, (hwithin e he).2⟩
    have hle := pktsSize_le hfollow hwithin' hentry.2
    simp only [pktsSize, List.map_cons, List.sum_cons] at hsum hle
    have hstart : entry.offsetInFile = start := by
      unfold PktEntry.endInFile at hle
      omega
    subst hstart
    exact .cons rfl hentryPos (ih hfollow hwithin' hpos (by rw [pktsSize]; omega))

end

theorem Checked.tiles (h : Checked size 0 none index) (hsize : size < 2 ^ 64)
    (hapart : Apart size index) : Tiles size 0 index := by
  have hfollow := hapart.follow h.sorted
  have hwithin : ∀ entry ∈ index, 0 ≤ entry.offsetInFile ∧ entry.endInFile ≤ size :=
    fun entry hentry => ⟨Nat.zero_le _, hapart.within entry hentry⟩
  have hle := pktsSize_le hfollow hwithin (Nat.zero_le _)
  refine tiles_of_follow hfollow hwithin hapart.pos ?_
  rw [← Nat.mod_eq_of_lt (hle.trans_lt hsize)]
  exact h.sum

theorem Tiles.le (h : Tiles size start index) : start ≤ size := by
  induction h with
  | nil => exact le_rfl
  | cons => omega

theorem Tiles.le_offset (h : Tiles size start index) :
    ∀ entry ∈ index, start ≤ entry.offsetInFile := by
  induction h with
  | nil => simp
  | cons hstart _ _ ih =>
    refine List.forall_mem_cons.mpr ⟨hstart.ge, fun entry hentry => ?_⟩
    have := ih entry hentry
    omega

theorem Tiles.apart (h : Tiles size start index) : Apart size index := by
  induction h with
  | nil => exact ⟨by simp, by simp, .nil⟩
  | cons hstart hpos rest ih =>
    refine ⟨List.forall_mem_cons.mpr ⟨hpos, ih.pos⟩, List.forall_mem_cons.mpr ⟨?_, ih.within⟩,
      List.pairwise_cons.mpr ⟨fun entry hentry => .inl ?_, ih.disjoint⟩⟩
    · rw [PktEntry.endInFile, hstart]
      exact rest.le
    · rw [PktEntry.endInFile, hstart]
      exact rest.le_offset entry hentry

theorem Tiles.builds {tc : TraceCls} {align : ℕ} {path : String} {content : List UInt8}
    (h : Tiles (fileSize content) start index) (hsize : fileSize content < 2 ^ 64)
    (htruth : Truthful tc align path content index) (acc : List PktEntry) :
    ∃ tail, Builds tc align path content start acc (.returns (some (acc ++ tail))) ∧
      tail.map PktEntry.place = index.map PktEntry.place := by
  induction h generalizing acc with
  | nil => exact ⟨[], by rw [List.append_nil]; exact .noMoreData, rfl⟩
  | @cons start entry index hstart hpos rest ih =>
    have hle := rest.le
    obtain ⟨p, hread, hlen⟩ := htruth entry List.mem_cons_self
    rw [hstart] at hread
    have hpkt : pktSize content p = entry.packetSize := by rw [pktSize, hlen, Option.getD_some]
    have hadd : addLen start (pktSize content p) = start + entry.packetSize := by
      rw [hpkt]
      exact Nat.mod_eq_of_lt (by omega)
    obtain ⟨tail, hbuilds, htail⟩ := ih (fun e he => htruth e (List.mem_cons_of_mem _ he))
      (acc ++ [indexEntry content start p])
    rw [← hadd, List.append_assoc] at hbuilds
    refine ⟨indexEntry content start p :: tail,
      .packet (by omega) hread (by omega) hbuilds, ?_⟩
    rw [List.map_cons, List.map_cons, htail]
    simp [PktEntry.place, indexEntry, hpkt, hstart]

theorem BuildsFromIdx.checked {tc : TraceCls} {align : ℕ} {path : String}
    {content idx : List UInt8} {header : IdxHeader} (hheader : idxHeader idx = some header)
    (h : BuildsFromIdx tc align path content idx (.returns (some index))) :
    index = idxEntries idx header ∧ Checked (fileSize content) 0 none index := by
  generalize hr : BuildRes.returns (some index) = r at h
  cases h with
  | entries hheader' =>
    rw [hheader] at hheader'
    cases hheader'
    obtain ⟨tail, rfl, hchecked, htail⟩ := idxLoop_returns (by decide) hr.symm
    exact ⟨htail, hchecked⟩
  | badHeader | throws | traps | noCls | noClkCls => cases hr

/-- An index which the function returns tiles the data stream file exactly when the entries of the
index file are nonempty and disjoint parts of the data stream file. When the packets also record
their sizes truthfully, indexing the data stream file gives the same packets. -/
theorem build_index_from_idx_file_iff {tc : TraceCls} {align : ℕ} {path : String}
    {content idx : List UInt8} {header : IdxHeader} {index : List PktEntry}
    (hsize : fileSize content < 2 ^ 64) (hheader : idxHeader idx = some header)
    (h : BuildsFromIdx tc align path content idx (.returns (some index))) :
    (Tiles (fileSize content) 0 index ↔ Apart (fileSize content) (idxEntries idx header)) ∧
    (Apart (fileSize content) (idxEntries idx header) →
      Truthful tc align path content (idxEntries idx header) →
      ∃ index', Builds tc align path content 0 [] (.returns (some index')) ∧
        index'.map PktEntry.place = index.map PktEntry.place) := by
  obtain ⟨rfl, hchecked⟩ := h.checked hheader
  refine ⟨⟨Tiles.apart, hchecked.tiles hsize⟩, fun hapart htruth => ?_⟩
  obtain ⟨tail, hbuilds, hplaces⟩ := (hchecked.tiles hsize hapart).builds hsize htruth []
  exact ⟨tail, hbuilds, hplaces⟩

def idxFile (places : List (UInt8 × UInt8)) : List UInt8 :=
  [0xC1, 0xF1, 0xDC, 0xC1, 0, 0, 0, 1, 0, 0, 0, 0, 0, 0, 0, 56] ++
    places.flatMap fun place =>
      List.replicate 7 0 ++ [place.1] ++ List.replicate 7 0 ++ [place.2] ++ List.replicate 40 0

def placeEntry (place : ℕ × ℕ) : PktEntry := ⟨8 * place.1, place.2, 0, 0, 2 ^ 64 - 1⟩

theorem buildsFromIdx_idxFile (places : List (UInt8 × UInt8)) (index : List PktEntry)
    (header : IdxHeader) (hheader : idxHeader (idxFile places) = some header)
    (hloop : idxLoop (idxFile places) header 32 header.entryCount 16 none 0 []
      = .returns (some index)) :
    BuildsFromIdx lensTraceCls 1 "stream" [16, 32, 0, 0] (idxFile places) (.returns (some index)) := by
  obtain ⟨p, cls, hread, -, hcls, hclk⟩ :=
    reads_of_evalCheck lensTraceCls 1 "stream" [16, 32, 0, 0] 0 32 (by decide +kernel)
  rw [← hloop]
  exact .entries hheader hread hcls hclk

theorem build_index_from_idx_file_iff_two :
    BuildsFromIdx lensTraceCls 1 "stream" [16, 32, 0, 0] (idxFile [(0, 16), (2, 16)])
      (.returns (some [placeEntry (0, 16), placeEntry (2, 16)])) ∧
    Tiles 32 0 [placeEntry (0, 16), placeEntry (2, 16)] := by
  have hheader : idxHeader (idxFile [(0, 16), (2, 16)]) = some ⟨0, 56, 2⟩ := by decide +kernel
  have hbuilds := buildsFromIdx_idxFile _ [placeEntry (0, 16), placeEntry (2, 16)] ⟨0, 56, 2⟩
    hheader (by decide +kernel)
  have hentries : idxEntries (idxFile [(0, 16), (2, 16)]) ⟨0, 56, 2⟩ =
      [placeEntry (0, 16), placeEntry (2, 16)] := by decide +kernel
  refine ⟨hbuilds, (build_index_from_idx_file_iff (by decide) hheader hbuilds).1.mpr ?_⟩
  rw [hentries]
  exact ⟨by decide, by decide, by decide⟩

theorem build_index_from_idx_file_overlap :
    BuildsFromIdx lensTraceCls 1 "stream" [16, 32, 0, 0] (idxFile [(0, 16), (0, 16)])
      (.returns (some [placeEntry (0, 16), placeEntry (0, 16)])) ∧
    ¬ Tiles 32 0 [placeEntry (0, 16), placeEntry (0, 16)] := by
  refine ⟨buildsFromIdx_idxFile _ _ ⟨0, 56, 2⟩ (by decide +kernel) (by decide +kernel), ?_⟩
  rintro (_ | ⟨_, _, _ | ⟨hstart, _, _⟩⟩)
  exact absurd hstart (by decide)

end Babeltrace.Fs
