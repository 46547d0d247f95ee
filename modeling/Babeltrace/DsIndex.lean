import Babeltrace.OrderedMerge

/-!
# Packet indexes of data stream files

`src.ctf.fs` merges the indexes of the files of one same data stream (`fs.cpp`). The first index is
moved as is to the data stream file group.
-/
namespace Babeltrace.Fs
open OrderedMerge

/-- `ctf_fs_ds_index_entry`; offsets and sizes are in bytes. -/
structure IndexEntry where
  path : String
  offsetInFile : ℕ
  offsetInStream : ℕ
  packetSize : ℕ
  timestampBegin : ℕ
  timestampEnd : ℕ
  packetSeqNum : ℕ
  deriving DecidableEq, Repr

abbrev DsIndex := List IndexEntry

def dsIndexEntriesEqual (left right : IndexEntry) : Bool :=
  if left.packetSize ≠ right.packetSize then false
  else if left.timestampBegin ≠ right.timestampBegin then false
  else if left.timestampEnd ≠ right.timestampEnd then false
  else if left.packetSeqNum ≠ right.packetSeqNum then false
  else true

/-- `ds_index_insert_ds_index_entry_sorted()` -/
def insertEntrySorted (index : DsIndex) (entry : IndexEntry) : DsIndex :=
  insertSorted IndexEntry.timestampBegin dsIndexEntriesEqual entry index

/-- `merge_ctf_fs_ds_indexes()` -/
def mergeDsIndexes (dest src : DsIndex) : DsIndex := src.foldl insertEntrySorted dest

/-- In the order in which `add_ds_file_to_ds_file_group()` adds the files -/
def groupIndex : List DsIndex → DsIndex
  | [] => []
  | index :: indexes => indexes.foldl mergeDsIndexes index

/-- What `ds_index_entries_equal()` compares -/
def IndexEntry.packet (entry : IndexEntry) : ℕ × ℕ × ℕ × ℕ :=
  (entry.timestampBegin, entry.packetSize, entry.timestampEnd, entry.packetSeqNum)

theorem dsIndexEntriesEqual_iff (left right : IndexEntry) :
    dsIndexEntriesEqual left right = true ↔ left.packet = right.packet := by
  simp only [dsIndexEntriesEqual, IndexEntry.packet, Prod.mk.injEq]
  by_cases hsize : left.packetSize = right.packetSize <;>
  by_cases hbegin : left.timestampBegin = right.timestampBegin <;>
  by_cases hend : left.timestampEnd = right.timestampEnd <;>
  by_cases hnum : left.packetSeqNum = right.packetSeqNum <;>
  simp [hsize, hbegin, hend, hnum]

/-! ## Expected group index -/

structure MergedOk (indexes : List DsIndex) (merged : DsIndex) : Prop where
  sorted : merged.Pairwise fun a b => a.timestampBegin ≤ b.timestampBegin
  distinct : merged.Pairwise fun a b => dsIndexEntriesEqual a b = false
  complete : ∀ index ∈ indexes, ∀ entry ∈ index,
    ∃ other ∈ merged, dsIndexEntriesEqual entry other = true
  sound : ∀ entry ∈ merged, ∃ index ∈ indexes, entry ∈ index
  fileOrder : ∀ index ∈ indexes, ∀ a ∈ index, ∀ b ∈ index,
    [a, b].Sublist merged → [a, b].Sublist index
  again : ∀ index ∈ indexes, mergeDsIndexes merged index = merged
  anyOrder : ∀ indexes', indexes'.Perm indexes →
    ((groupIndex indexes').map IndexEntry.packet).Perm (merged.map IndexEntry.packet)

/-- Timestamps strictly increase within each file, and packets of the same one are equal. -/
def NoTies (indexes : List DsIndex) : Prop :=
  (∀ index ∈ indexes, Increasing IndexEntry.timestampBegin index) ∧
    ∀ a ∈ indexes.flatten, ∀ b ∈ indexes.flatten,
      a.timestampBegin = b.timestampBegin → dsIndexEntriesEqual a b = true

variable {indexes : List DsIndex} {index merged : DsIndex} {a : IndexEntry}
  {indexes' : List DsIndex} {entry b : IndexEntry}

theorem NoTies.perm (h : NoTies indexes) (hperm : indexes'.Perm indexes) : NoTies indexes' := by
  have hflat : ∀ a ∈ indexes'.flatten, a ∈ indexes.flatten := fun a ha => by
    obtain ⟨index, hindex, ha⟩ := List.mem_flatten.mp ha
    exact List.mem_flatten.mpr ⟨index, hperm.subset hindex, ha⟩
  exact ⟨fun index hindex => h.1 index (hperm.subset hindex),
    fun a ha b hb => h.2 a (hflat a ha) b (hflat b hb)⟩

theorem NoTies.timeIdentifies (h : NoTies indexes) :
    TimeIdentifies IndexEntry.timestampBegin dsIndexEntriesEqual indexes.flatten := by
  refine fun a ha b hb => ⟨h.2 a ha b hb, fun heq => ?_⟩
  rw [dsIndexEntriesEqual_iff] at heq
  exact congrArg Prod.fst heq

theorem subset_flatten (h : index ∈ indexes) :
    index ⊆ indexes.flatten :=
  fun _ ha => List.mem_flatten.mpr ⟨index, h, ha⟩

theorem sublist_foldl_mergeDsIndexes (index : DsIndex) (indexes : List DsIndex) :
    index.Sublist (indexes.foldl mergeDsIndexes index) := by
  induction indexes generalizing index with
  | nil => exact List.Sublist.refl _
  | cons next indexes ih => exact (sublist_mergeInto index next).trans (ih _)

theorem mem_of_mem_foldl_mergeDsIndexes (h : entry ∈ indexes.foldl mergeDsIndexes index) :
    ∃ i ∈ index :: indexes, entry ∈ i := by
  induction indexes generalizing index with
  | nil => exact ⟨index, List.mem_cons_self, h⟩
  | cons next indexes ih =>
    obtain ⟨i, hi, hentry⟩ := ih h
    rcases List.mem_cons.mp hi with rfl | hi
    · rcases mem_of_mem_mergeInto hentry with hentry | hentry
      · exact ⟨index, List.mem_cons_self, hentry⟩
      · exact ⟨next, List.mem_cons_of_mem _ List.mem_cons_self, hentry⟩
    · exact ⟨i, List.mem_cons_of_mem _ (List.mem_cons_of_mem _ hi), hentry⟩

theorem mem_of_mem_groupIndex (h : entry ∈ groupIndex indexes) :
    ∃ index ∈ indexes, entry ∈ index := by
  cases indexes with
  | nil => exact absurd h List.not_mem_nil
  | cons index indexes => exact mem_of_mem_foldl_mergeDsIndexes h

theorem foldl_mergeDsIndexes_increasing {all dest : DsIndex}
    (hall : TimeIdentifies IndexEntry.timestampBegin dsIndexEntriesEqual all) (hdest : dest ⊆ all)
    (hindexes : ∀ index ∈ indexes, index ⊆ all) (hinc : Increasing IndexEntry.timestampBegin dest) :
    Increasing IndexEntry.timestampBegin (indexes.foldl mergeDsIndexes dest) ∧
      ∀ index ∈ dest :: indexes, ∀ a ∈ index,
        ∃ b ∈ indexes.foldl mergeDsIndexes dest, b.timestampBegin = a.timestampBegin := by
  induction indexes generalizing dest with
  | nil => exact ⟨hinc, List.forall_mem_singleton.mpr fun a ha => ⟨a, ha, rfl⟩⟩
  | cons index indexes ih =>
    obtain ⟨hindex, hindexes⟩ := List.forall_mem_cons.mp hindexes
    obtain ⟨hinc', htimes⟩ := increasing_mergeInto hall hdest hindex hinc
    have hdest' : mergeDsIndexes dest index ⊆ all := fun a ha =>
      (mem_of_mem_mergeInto ha).elim (fun h => hdest h) (fun h => hindex h)
    obtain ⟨hinc'', hall'⟩ := ih hdest' hindexes hinc'
    obtain ⟨hmerged, hrest⟩ := List.forall_mem_cons.mp hall'
    refine ⟨hinc'', List.forall_mem_cons.mpr ⟨fun a ha => ?_, List.forall_mem_cons.mpr
      ⟨fun a ha => ?_, hrest⟩⟩⟩
    · exact hmerged a ((sublist_mergeInto dest index).subset ha)
    · obtain ⟨b, hb, hba⟩ := htimes a ha
      obtain ⟨c, hc, hcb⟩ := hmerged b hb
      exact ⟨c, hc, hcb.trans hba⟩

theorem groupIndex_increasing (h : NoTies indexes) :
    Increasing IndexEntry.timestampBegin (groupIndex indexes) ∧
      ∀ index ∈ indexes, ∀ a ∈ index,
        ∃ b ∈ groupIndex indexes, b.timestampBegin = a.timestampBegin := by
  cases indexes with
  | nil => exact ⟨List.Pairwise.nil, List.forall_mem_nil _⟩
  | cons index indexes =>
    exact foldl_mergeDsIndexes_increasing h.timeIdentifies (subset_flatten List.mem_cons_self)
      (fun i hi => subset_flatten (List.mem_cons_of_mem _ hi)) (h.1 index List.mem_cons_self)

theorem groupIndex_subset (indexes : List DsIndex) : groupIndex indexes ⊆ indexes.flatten := by
  intro a ha
  obtain ⟨index, hindex, ha⟩ := mem_of_mem_groupIndex ha
  exact subset_flatten hindex ha

theorem mem_map_packet_iff (h : NoTies indexes) (packet : ℕ × ℕ × ℕ × ℕ) :
    packet ∈ (groupIndex indexes).map IndexEntry.packet ↔
      packet ∈ indexes.flatten.map IndexEntry.packet := by
  simp only [List.mem_map]
  constructor
  · rintro ⟨a, ha, rfl⟩
    exact ⟨a, groupIndex_subset indexes ha, rfl⟩
  · rintro ⟨a, ha, rfl⟩
    obtain ⟨index, hindex, haIndex⟩ := List.mem_flatten.mp ha
    obtain ⟨b, hb, hba⟩ := (groupIndex_increasing h).2 index hindex a haIndex
    refine ⟨b, hb, ?_⟩
    rw [← dsIndexEntriesEqual_iff]
    exact h.2 b (groupIndex_subset indexes hb) a ha hba

theorem packet_nodup (h : Increasing IndexEntry.timestampBegin index) :
    (index.map IndexEntry.packet).Nodup := by
  refine List.pairwise_map.mpr (h.imp fun hlt heq => ?_)
  exact absurd (congrArg Prod.fst heq) (ne_of_lt hlt)

theorem groupIndex_perm (h : NoTies indexes) (hperm : indexes'.Perm indexes) :
    ((groupIndex indexes').map IndexEntry.packet).Perm
      ((groupIndex indexes).map IndexEntry.packet) := by
  have h' := h.perm hperm
  refine (List.perm_ext_iff_of_nodup (packet_nodup (groupIndex_increasing h').1)
    (packet_nodup (groupIndex_increasing h).1)).mpr fun packet => ?_
  rw [mem_map_packet_iff h', mem_map_packet_iff h]
  exact ((hperm.flatten).map _).mem_iff

theorem increasing_fileOrder (hindex : Increasing IndexEntry.timestampBegin index)
    (hmerged : Increasing IndexEntry.timestampBegin merged) (ha : a ∈ index) (hb : b ∈ index)
    (hab : [a, b].Sublist merged) : [a, b].Sublist index := by
  have hpair : Increasing IndexEntry.timestampBegin [a, b] := hmerged.sublist hab
  have hlt : a.timestampBegin < b.timestampBegin :=
    (List.pairwise_cons.mp hpair).1 b (List.mem_singleton_self b)
  induction index with
  | nil => exact absurd ha List.not_mem_nil
  | cons c index ih =>
    obtain ⟨hc, hindex⟩ := List.pairwise_cons.mp hindex
    rcases List.mem_cons.mp ha with rfl | ha'
    · rcases List.mem_cons.mp hb with rfl | hb'
      · omega
      · exact (List.singleton_sublist.mpr hb').cons_cons _
    · rcases List.mem_cons.mp hb with rfl | hb'
      · have := hc a ha'
        omega
      · exact (ih hindex ha' hb').cons _

theorem mergedOk_of_noTies (h : NoTies indexes) :
    MergedOk indexes (groupIndex indexes) := by
  obtain ⟨hinc, htimes⟩ := groupIndex_increasing h
  have hsub := groupIndex_subset indexes
  refine ⟨hinc.imp fun h => le_of_lt h, hinc.imp fun hlt => ?_, ?_, fun _ => mem_of_mem_groupIndex, ?_,
    ?_, fun _ => groupIndex_perm h⟩
  · rw [Bool.eq_false_iff, ne_eq, dsIndexEntriesEqual_iff]
    exact fun heq => absurd (congrArg Prod.fst heq) (ne_of_lt hlt)
  · intro index hindex a ha
    obtain ⟨b, hb, hba⟩ := htimes index hindex a ha
    exact ⟨b, hb, h.2 a (subset_flatten hindex ha) b (hsub hb) hba.symm⟩
  · intro index hindex a ha b hb hab
    exact increasing_fileOrder (h.1 index hindex) hinc ha hb hab
  · intro index hindex
    exact mergeInto_eq_self h.timeIdentifies hsub (subset_flatten hindex) hinc
      (htimes index hindex)

/-! ## Ties -/

theorem exists_first (hsorted : merged.Pairwise fun a b => a.timestampBegin ≤ b.timestampBegin)
    (ha : a ∈ merged) :
    ∃ pre b post, merged = pre ++ b :: post ∧ (∀ c ∈ pre, c.timestampBegin < a.timestampBegin) ∧
      b.timestampBegin = a.timestampBegin := by
  induction merged with
  | nil => exact absurd ha List.not_mem_nil
  | cons c merged ih =>
    obtain ⟨hc, hsorted⟩ := List.pairwise_cons.mp hsorted
    rcases List.mem_cons.mp ha with rfl | ha
    · exact ⟨[], a, merged, rfl, List.forall_mem_nil _, rfl⟩
    · by_cases heq : c.timestampBegin = a.timestampBegin
      · exact ⟨[], c, merged, rfl, List.forall_mem_nil _, heq⟩
      · obtain ⟨pre, b, post, rfl, hpre, hb⟩ := ih hsorted ha
        have := hc a ha
        exact ⟨c :: pre, b, post, rfl,
          List.forall_mem_cons.mpr ⟨by omega, hpre⟩, hb⟩

theorem MergedOk.packet_eq (h : MergedOk indexes merged) (ha : a ∈ indexes.flatten)
    (hb : b ∈ indexes.flatten) (hab : a.timestampBegin = b.timestampBegin) :
    dsIndexEntriesEqual a b = true := by
  obtain ⟨indexA, hindexA, haA⟩ := List.mem_flatten.mp ha
  obtain ⟨indexB, hindexB, hbB⟩ := List.mem_flatten.mp hb
  obtain ⟨a', ha', haa'⟩ := h.complete indexA hindexA a haA
  rw [dsIndexEntriesEqual_iff] at haa'
  have hbegin : a'.timestampBegin = a.timestampBegin := (congrArg Prod.fst haa').symm
  obtain ⟨pre, first, post, hmerged, hpre, hfirst⟩ := exists_first h.sorted ha'
  have hsame : ∀ index ∈ indexes, ∀ c ∈ index, c.timestampBegin = a.timestampBegin →
      dsIndexEntriesEqual c first = true := by
    intro index hindex c hc hca
    have heq := insertSorted_eq_of_mergeInto_eq (h.again index hindex) c hc
    rw [hmerged] at heq
    refine same_of_insertSorted_eq heq (fun d hd => ?_) ?_
    · have := hpre d hd
      omega
    · omega
  have haf := hsame indexA hindexA a haA rfl
  have hbf := hsame indexB hindexB b hbB hab.symm
  rw [dsIndexEntriesEqual_iff] at haf hbf ⊢
  rw [haf, hbf]

theorem increasing_of_mergedOk (h : MergedOk (index :: indexes) (groupIndex (index :: indexes))) :
    Increasing IndexEntry.timestampBegin index := by
  have hsub : index.Sublist (groupIndex (index :: indexes)) :=
    sublist_foldl_mergeDsIndexes index indexes
  have hflat : ∀ a ∈ index, a ∈ (index :: indexes).flatten := fun a ha =>
    subset_flatten List.mem_cons_self ha
  have hpair := (h.sorted.sublist hsub).and (h.distinct.sublist hsub)
  refine hpair.imp_of_mem fun {a b} ha hb hab => lt_of_le_of_ne hab.1 fun heq => ?_
  have hequal := h.packet_eq (hflat a ha) (hflat b hb) heq
  exact absurd (hequal.symm.trans hab.2) (by decide)

theorem mergedOk_iff_noTies (family : List DsIndex) :
    (∀ indexes, indexes.Perm family → MergedOk indexes (groupIndex indexes)) ↔ NoTies family := by
  constructor
  · intro h
    refine ⟨fun index hindex => ?_, fun a ha b hb => (h family (List.Perm.refl _)).packet_eq ha hb⟩
    obtain ⟨pre, post, rfl⟩ := List.append_of_mem hindex
    exact increasing_of_mergedOk (h (index :: (pre ++ post)) List.perm_middle.symm)
  · intro h indexes hperm
    exact mergedOk_of_noTies (h.perm hperm)

/-- Two packets which begin at the same time are reversed by a merge, and added again by another
one. -/
def tiedFile : DsIndex :=
  [⟨"a", 0, 0, 8, 5, 6, 0⟩, ⟨"a", 8, 8, 8, 5, 7, 1⟩]

theorem mergeDsIndexes_reverses_ties :
    groupIndex [[⟨"b", 0, 0, 8, 1, 2, 0⟩], tiedFile] =
        [⟨"b", 0, 0, 8, 1, 2, 0⟩, ⟨"a", 8, 8, 8, 5, 7, 1⟩, ⟨"a", 0, 0, 8, 5, 6, 0⟩] ∧
      mergeDsIndexes (groupIndex [[⟨"b", 0, 0, 8, 1, 2, 0⟩], tiedFile]) tiedFile ≠
        groupIndex [[⟨"b", 0, 0, 8, 1, 2, 0⟩], tiedFile] := by
  decide

end Babeltrace.Fs
