import Babeltrace.FsIndexing

/-!
# Reading a data stream file through its index

The medium of an index which tiles a file gives access to the whole file: the packets, which are read
one mapping at a time, are the bytes of the file in order.
-/
namespace Babeltrace.Fs

def PktEntry.toIndexEntry (path : String) (entry : PktEntry) : IndexEntry where
  path := path
  offsetInFile := entry.offsetInFile / 8
  offsetInStream := 0
  packetSize := entry.packetSize / 8
  timestampBegin := entry.timestampBegin
  timestampEnd := entry.timestampEnd
  packetSeqNum := entry.packetSeqNum

/-- The entries follow each other from the byte `start` to the byte `size` of a file. -/
structure Adjoining (path : String) (size start : ℕ) (index : DsIndex) : Prop where
  mem : ∀ entry ∈ index, entry.path = path ∧ start ≤ entry.offsetInFile ∧ 0 < entry.packetSize ∧
    entry.endInFile ≤ size
  total : start + totalSize index = size
  later : index.Pairwise fun a b => a.endInFile ≤ b.offsetInFile
  next : index.IsChain fun a b => b.offsetInFile = a.endInFile
  first : ∀ entry ∈ index.head?, entry.offsetInFile = start

section
variable {path : String} {size start : ℕ}

theorem Adjoining.cons {entry : IndexEntry} {index : DsIndex}
    (h : Adjoining path size (start + entry.packetSize) index) (hpath : entry.path = path)
    (hstart : entry.offsetInFile = start) (hpos : 0 < entry.packetSize) :
    Adjoining path size start (entry :: index) := by
  have hend : entry.endInFile = start + entry.packetSize := by rw [IndexEntry.endInFile, hstart]
  refine ⟨List.forall_mem_cons.mpr ⟨⟨hpath, hstart.ge, hpos, ?_⟩, fun e he => ?_⟩, ?_,
    List.pairwise_cons.mpr ⟨fun e he => ?_, h.later⟩, List.isChain_cons.mpr ⟨fun e he => ?_, h.next⟩,
    fun e he => ?_⟩
  · have := h.total
    omega
  · obtain ⟨hpath, hle, hmem⟩ := h.mem e he
    exact ⟨hpath, by omega, hmem⟩
  · have := h.total
    rw [totalSize_cons]
    omega
  · exact hend ▸ (h.mem e he).2.1
  · exact hend ▸ h.first e he
  · obtain rfl := Option.some.inj he
    exact hstart

theorem Tiles.adjoining {bits : ℕ} {index : List PktEntry} (h : Tiles (8 * size) bits index)
    (hbytes : ∀ entry ∈ index, 8 ∣ entry.packetSize) (hbits : bits = 8 * start) :
    Adjoining path size start (index.map (·.toIndexEntry path)) := by
  induction h generalizing start with
  | nil => exact ⟨by simp, by rw [List.map_nil, totalSize_nil]; omega, .nil, .nil, by simp⟩
  | @cons _ entry _ hstart hpos _ ih =>
    obtain ⟨⟨n, hn⟩, hbytes⟩ := List.forall_mem_cons.mp hbytes
    have hsize : (entry.toIndexEntry path).packetSize = n := by simp [PktEntry.toIndexEntry, hn]
    have hrest := ih hbytes (show _ = 8 * (start + n) by omega)
    have hoffset : (entry.toIndexEntry path).offsetInFile = start := by
      simp [PktEntry.toIndexEntry, hstart, hbits]
    rw [← hsize] at hrest
    exact hrest.cons rfl hoffset (by omega)

variable {files : String → List UInt8} {index : DsIndex}

theorem Tiles.streamBytes_eq {bits : ℕ} {index : List PktEntry}
    (h : Tiles (fileSize (files path)) bits index)
    (hbytes : ∀ entry ∈ index, 8 ∣ entry.packetSize) (hbits : bits = 8 * start) :
    streamBytes files (index.map (·.toIndexEntry path)) = (files path).drop start := by
  induction h generalizing start with
  | nil =>
    rw [List.drop_of_length_le (show (files path).length ≤ start by simp [fileSize] at hbits; omega)]
    rfl
  | @cons _ entry _ hstart hpos _ ih =>
    obtain ⟨⟨n, hn⟩, hbytes⟩ := List.forall_mem_cons.mp hbytes
    rw [List.map_cons, streamBytes_cons, ih hbytes (show _ = 8 * (start + n) by omega)]
    simp [PktEntry.toIndexEntry, slice, IndexEntry.endInFile, hstart, hbits, hn]

theorem Adjoining.packetsOk (h : Adjoining path (files path).length 0 index)
    (hlen : (files path).length < 2 ^ 61) : PacketsOk (fun path => (files path).length) index := by
  refine ⟨fun e he => (h.mem e he).2.2.1, fun e he => ?_, fun e he => ?_, ?_, ?_⟩
  · obtain ⟨rfl, -, -, hend⟩ := h.mem e he
    exact hend
  · obtain ⟨rfl, -⟩ := h.mem e he
    exact hlen
  · have := h.total
    rw [totalSize] at this
    omega
  · exact h.later.imp fun hle _ => .inl hle

end

/-- Whatever the alignment of mappings, reading through an index which tiles a file is reading the
file. -/
theorem indexed_file_bufOk {align : ℕ} (halign : 0 < align) (files : String → List UInt8)
    (path : String) (hlen : (files path).length < 2 ^ 61) {index : List PktEntry}
    (htiles : Tiles (fileSize (files path)) 0 index)
    (hbytes : ∀ entry ∈ index, 8 ∣ entry.packetSize) :
    streamBytes files (index.map (·.toIndexEntry path)) = files path ∧
    ∀ o m, m ≤ 9 →
      BufOk align files (updateOffsetsInStream (index.map (·.toIndexEntry path))) o m := by
  have h : Adjoining path (files path).length 0 (index.map (·.toIndexEntry path)) :=
    htiles.adjoining hbytes rfl
  have hstream := htiles.streamBytes_eq hbytes (show 0 = 8 * 0 from rfl)
  refine ⟨hstream, fun o m hm => ?_⟩
  exact bufOk_of_isChain halign (h.packetsOk hlen) (fun _ => rfl)
    (h.next.imp fun _ _ hnext _ => .inl hnext) o hm

/-- Two packets of two bytes -/
theorem indexed_file_bufOk_two :
    let index := [⟨0, 16, 0, 0, 0⟩, ⟨16, 16, 0, 0, 1⟩].map (PktEntry.toIndexEntry "stream")
    BufOk 1 (fun _ => [1, 2, 3, 4]) (updateOffsetsInStream index) 2 2 := by
  have htiles : Tiles (fileSize [1, 2, 3, 4]) 0 [⟨0, 16, 0, 0, 0⟩, ⟨16, 16, 0, 0, 1⟩] :=
    .cons rfl (by decide) (.cons rfl (by decide) .nil)
  exact (indexed_file_bufOk (by decide) (fun _ => [1, 2, 3, 4]) "stream" (by decide) htiles
    (by decide)).2 2 2 (by decide)

end Babeltrace.Fs
