import OmxDb.Reload

/-!
# Snapshots

`Sound P s segs` says that an opened store, in memory and in its files, stands for the segments `segs`. A
snapshot under a free number turns the memtable into the newest segment (`makeSnapshot_success`); one whose
filter or index file does not open loses the memtable and keeps the segments (`makeSnapshot_failure`). A
number is free where no registered table has it (`NumberFree`).
-/

namespace OmxDb

open StorageEngine

/-! ### Files of a store -/

/-- The filter a directory is opened with. -/
def filterOnDisk : Option (List UInt8) → BloomFilter kFilterSize kNumHashes
  | none => {}
  | some bytes => BloomFilter.load {} bytes

/-- The files stand for the segments, in any order. -/
structure Persisted (P : Platform) (disk : Disk) (segs : List Segment) : Prop where
  distinct : segs.Pairwise fun a b => a.fileId ≠ b.fileId
  files : SegmentFiles disk segs
  indexes : IndexFiles P (disk.indexDir.getD ∅) (segs.map Segment.tableIndex)
  covers : Covers P (filterOnDisk disk.bloom) segs

/-- An opened store stands for the segments, newest first; compressor and hasher are those of its options. -/
structure Sound (P : Platform) (s : Store) (segs : List Segment) : Prop extends Represents P s segs where
  persisted : Persisted P s.disk segs
  segmentDir : s.disk.segmentDir.isSome
  indexDir : s.disk.indexDir.isSome
  options : s.disk.options = some (saveOptions s.engine.opts)
  compressor : s.engine.compressor = some (createCompressor P s.engine.opts.compressionType)
  hasher : s.engine.hasher = createHasher P s.engine.opts.hashType

/-- No registered table has the number of the next segment. -/
def NumberFree (e : StorageEngine) : Prop := ∀ t ∈ e.index.tableIndexes, t.fileId.toNat ≠ e.segmentId

@[simp] theorem filterOnDisk_dump (b : BloomFilter kFilterSize kNumHashes) :
    filterOnDisk (some b.dump) = b := BloomFilter.load_dump b {}

namespace Disk

theorem segment_writeSegment_self {disk : Disk} (h : disk.segmentDir.isSome) (name : FileName)
    (bytes : List UInt8) : (disk.writeSegment name bytes).segment name = some bytes := by
  obtain ⟨dir, hdir⟩ := Option.isSome_iff_exists.mp h
  simp [segment, writeSegment, hdir]

theorem segment_writeSegment_ne {disk : Disk} {name name' : FileName} (h : name' ≠ name)
    (bytes : List UInt8) : (disk.writeSegment name bytes).segment name' = disk.segment name' := by
  unfold segment writeSegment
  cases disk.segmentDir with
  | none => rfl
  | some dir => simp [AList.lookup_insert_ne h]

end Disk

theorem persisted_empty (P : Platform) : Persisted P {} [] where
  distinct := List.Pairwise.nil
  files seg hseg := by cases hseg
  indexes name bytes := by simp
  covers seg hseg := by cases hseg

theorem Persisted.perm {P : Platform} {disk : Disk} {segs segs' : List Segment}
    (h : Persisted P disk segs) (hperm : segs'.Perm segs) : Persisted P disk segs' where
  distinct := h.distinct.perm hperm.symm fun h => h.symm
  files seg hseg := h.files seg (hperm.mem_iff.mp hseg)
  indexes := h.indexes.congr fun t => by simp only [List.mem_map, hperm.mem_iff]
  covers seg hseg := h.covers seg (hperm.mem_iff.mp hseg)

theorem Persisted.ids_pairwise {P : Platform} {disk : Disk} {segs : List Segment}
    (h : Persisted P disk segs) :
    (segs.map Segment.tableIndex).Pairwise fun a b => a.fileId ≠ b.fileId := by
  rw [List.pairwise_map]
  simpa using h.distinct

theorem Persisted.writeSegment {P : Platform} {disk : Disk} {segs : List Segment}
    (h : Persisted P disk segs) {n : Nat} (hnew : ∀ seg ∈ segs, seg.fileId.toNat ≠ n)
    (bytes : List UInt8) : Persisted P (disk.writeSegment (segmentFile n) bytes) segs where
  distinct := h.distinct
  files seg hseg := by
    have hne : segmentFile seg.fileId.toNat ≠ segmentFile n := fun heq =>
      hnew seg hseg (segmentFile_injective heq)
    rw [Disk.segment_writeSegment_ne hne]
    exact h.files seg hseg
  indexes := h.indexes
  covers := h.covers

theorem Persisted.writeBloom {P : Platform} {disk : Disk} {segs : List Segment}
    (h : Persisted P disk segs) (bytes : List UInt8) (hcovers : Covers P (filterOnDisk (some bytes)) segs) :
    Persisted P (disk.writeBloom bytes) segs where
  distinct := h.distinct
  files := h.files
  indexes := h.indexes
  covers := hcovers

theorem Persisted.writeIndex {P : Platform} {disk : Disk} {segs : List Segment}
    (h : Persisted P disk segs) (hdir : disk.indexDir.isSome) {seg : Segment}
    (hnew : ∀ seg' ∈ segs, seg'.fileId ≠ seg.fileId)
    (hfile : disk.segment (segmentFile seg.fileId.toNat) = some seg.bytes)
    (hcovers : Covers P (filterOnDisk disk.bloom) (seg :: segs)) :
    Persisted P (disk.writeIndex (indexFile seg.fileId.toNat) (seg.tableIndex.dump P)) (seg :: segs) where
  distinct := List.pairwise_cons.mpr ⟨fun seg' hseg' => (hnew seg' hseg').symm, h.distinct⟩
  files seg' hseg' := by
    rcases List.mem_cons.mp hseg' with rfl | hseg'
    · exact hfile
    · exact h.files seg' hseg'
  indexes := by
    obtain ⟨dir, hsome⟩ := Option.isSome_iff_exists.mp hdir
    have hinsert := h.indexes.insert seg.tableIndex (by
      intro t ht
      obtain ⟨seg', hseg', rfl⟩ := List.mem_map.mp ht
      simpa using hnew seg' hseg')
    rw [Segment.fileId_tableIndex] at hinsert
    simp only [Disk.writeIndex, hsome, Option.map_some, Option.getD_some] at hinsert ⊢
    exact hinsert
  covers := hcovers

/-! ### The memtable of a store -/

/-- The store with another memtable. -/
def Store.withMemTable (s : Store) (memTable : MemTable) : Store :=
  { s with engine := { s.engine with memTable := memTable } }

@[simp] theorem Store.disk_withMemTable (s : Store) (m : MemTable) : (s.withMemTable m).disk = s.disk := rfl

@[simp] theorem Store.memTable_withMemTable (s : Store) (m : MemTable) :
    (s.withMemTable m).engine.memTable = m := rfl

theorem Sound.withMemTable {P : Platform} {s : Store} {segs : List Segment} (h : Sound P s segs)
    (m : MemTable) : Sound P (s.withMemTable m) segs :=
  { h with
    index := h.index
    files := h.files
    covers := h.covers }

theorem finishGet_congr {e e' : StorageEngine} (hcompressor : e'.compressor = e.compressor)
    (hhasher : e'.hasher = e.hasher) (row : Option (ByteString × UInt128)) :
    finishGet e' row = finishGet e row := by
  unfold finishGet
  rw [hcompressor, hhasher]

theorem Sound.finishGet_eq {P : Platform} {s s' : Store} {segs segs' : List Segment} (h : Sound P s segs)
    (h' : Sound P s' segs') (hopts : s'.engine.opts = s.engine.opts)
    (row : Option (ByteString × UInt128)) : finishGet s'.engine row = finishGet s.engine row :=
  finishGet_congr (by rw [h.compressor, h'.compressor, hopts]) (by rw [h.hasher, h'.hasher, hopts]) row

theorem Sound.fileId_mem {P : Platform} {s : Store} {segs : List Segment} (h : Sound P s segs)
    {fileId : UInt32} :
    (∃ t ∈ s.engine.index.tableIndexes, t.fileId = fileId) ↔ ∃ seg ∈ segs, seg.fileId = fileId := by
  have hforall := h.index
  clear h
  generalize s.engine.index.tableIndexes = tables at hforall
  induction hforall with
  | nil => simp
  | cons ht _ ih =>
    simp only [List.mem_cons, exists_eq_or_imp, ih, (ht ⟨0⟩).1]

theorem Sound.numberFree_iff {P : Platform} {s : Store} {segs : List Segment} (h : Sound P s segs) :
    NumberFree s.engine ↔ ∀ seg ∈ segs, seg.fileId.toNat ≠ s.engine.segmentId := by
  constructor
  · intro hfree seg hseg
    obtain ⟨t, ht, hid⟩ := h.fileId_mem.mpr ⟨seg, hseg, rfl⟩
    rw [← hid]
    exact hfree t ht
  · intro hfree t ht
    obtain ⟨seg, hseg, hid⟩ := h.fileId_mem.mp ⟨t, ht, rfl⟩
    rw [← hid]
    exact hfree seg hseg

/-! ### The new segment -/

/-- The segment a snapshot of the memtable writes. -/
def Segment.ofMemTable (m : MemTable) (segment : Nat) (fits : RowsFit m.createSortedStringsTable.rows) :
    Segment :=
  ⟨UInt32.ofNat segment, m.createSortedStringsTable.rows, m.sortedStringsTable_sorted, fits⟩

theorem Segment.find_ofMemTable {m : MemTable} {segment : Nat}
    {fits : RowsFit m.createSortedStringsTable.rows} (h : m.HasOrdinaryKey) (key : Key) :
    (Segment.ofMemTable m segment fits).find key = m.findRow key :=
  MemTable.find?_sortedStringsTable h key

theorem newestRow_snapshot {m : MemTable} {segment : Nat} {fits : RowsFit m.createSortedStringsTable.rows}
    (h : m.HasOrdinaryKey) (segs : List Segment) (key : Key) :
    newestRow (Segment.ofMemTable m segment fits :: segs) key = (m.findRow key).or (newestRow segs key) := by
  rw [newestRow_cons, Segment.find_ofMemTable h]

theorem Segment.bytes_ofMemTable {m : MemTable} {segment : Nat}
    {fits : RowsFit m.createSortedStringsTable.rows} : (Segment.ofMemTable m segment fits).bytes = m.dump :=
  m.dump_eq.symm

theorem Covers.addAll {P : Platform} {b : BloomFilter kFilterSize kNumHashes} {segs : List Segment}
    (h : Covers P b segs) {m : MemTable} {segment : Nat} (fits : RowsFit m.createSortedStringsTable.rows) :
    Covers P (b.addAll P (m.createSortedStringsTable.rows.map SSTableRow.key))
      (Segment.ofMemTable m segment fits :: segs) := by
  intro seg hseg row hrow
  rcases List.mem_cons.mp hseg with rfl | hseg
  · exact BloomFilter.probablyContains_addAll P b (List.mem_map_of_mem hrow)
  · exact h.mono (BloomFilter.le_addAll P b _) seg hseg row hrow

section makeSnapshot

variable {P : Platform} {s : Store} {segs : List Segment} (h : Sound P s segs)
include h

/-- A snapshot makes the memtable the newest segment. -/
theorem makeSnapshot_success (hword : s.engine.segmentId < 2 ^ 32) (hfree : NumberFree s.engine)
    (fits : RowsFit s.engine.memTable.createSortedStringsTable.rows) :
    ∃ s', makeSnapshot P {} s = (s', .ok ()) ∧
      Sound P s' (Segment.ofMemTable s.engine.memTable s.engine.segmentId fits :: segs) ∧
      s'.engine.memTable = s.engine.memTable.clear ∧ s'.engine.opts = s.engine.opts ∧
      s'.engine.segmentId = s.engine.segmentId + 1 := by
  let seg := Segment.ofMemTable s.engine.memTable s.engine.segmentId fits
  let bloomFilter := s.engine.bloomFilter.addAll P (seg.rows.map SSTableRow.key)
  have hid : seg.fileId.toNat = s.engine.segmentId := UInt32.toNat_ofNat_of_lt hword
  have hnew := h.numberFree_iff.mp hfree
  have hnew' : ∀ seg' ∈ segs, seg'.fileId ≠ seg.fileId := by
    intro seg' hseg' heq
    exact hnew seg' hseg' (by rw [heq, hid])
  have hfresh : ∀ t ∈ s.engine.index.tableIndexes, t.fileId ≠ seg.tableIndex.fileId := by
    intro t ht heq
    obtain ⟨seg', hseg', hsegId⟩ := h.fileId_mem.mp ⟨t, ht, rfl⟩
    rw [Segment.fileId_tableIndex] at heq
    exact hnew' seg' hseg' (hsegId.trans heq)
  have hcovers : Covers P bloomFilter (seg :: segs) := h.covers.addAll fits
  -- the three files, one after another
  have hsegment := h.persisted.writeSegment hnew seg.bytes
  have hbloom := hsegment.writeBloom bloomFilter.dump (by
    rw [filterOnDisk_dump]
    exact h.covers.mono (BloomFilter.le_addAll P _ _))
  have hfile : ((s.disk.writeSegment (segmentFile s.engine.segmentId) seg.bytes).writeBloom
      bloomFilter.dump).segment (segmentFile seg.fileId.toNat) = some seg.bytes := by
    rw [hid]
    exact Disk.segment_writeSegment_self h.segmentDir _ _
  have hindex := hbloom.writeIndex h.indexDir hnew' hfile (by
    show Covers P (filterOnDisk (some bloomFilter.dump)) _
    rw [filterOnDisk_dump]
    exact hcovers)
  rw [hid] at hindex
  have hrun : makeSnapshot P {} s = (⟨((s.disk.writeSegment (segmentFile s.engine.segmentId)
        seg.bytes).writeBloom bloomFilter.dump).writeIndex (indexFile s.engine.segmentId)
          (seg.tableIndex.dump P),
      { s.engine with
        segmentId := s.engine.segmentId + 1
        memTable := s.engine.memTable.clear
        bloomFilter := bloomFilter
        index := s.engine.index.pushFront seg.tableIndex }⟩, .ok ()) := by
    have hupdate := Index.update_fresh hfresh
    simp only [seg, Segment.tableIndex, Segment.ofMemTable] at hupdate
    simp only [makeSnapshot, snapshotSegment, snapshotBloom, snapshotIndex, if_true, hupdate, seg,
      bloomFilter, Segment.bytes, Segment.tableIndex, Segment.ofMemTable, MemTable.dump_eq]
  refine ⟨_, hrun, ?_, rfl, rfl, rfl⟩
  exact {
    index := List.Forall₂.cons (fun key => ⟨Segment.fileId_tableIndex seg, rfl⟩) h.index
    files := hindex.files
    covers := hcovers
    persisted := hindex
    segmentDir := by simpa [Disk.writeIndex, Disk.writeBloom, Disk.writeSegment] using h.segmentDir
    indexDir := by simpa [Disk.writeIndex, Disk.writeBloom, Disk.writeSegment] using h.indexDir
    options := h.options
    compressor := h.compressor
    hasher := h.hasher }

/-- Without the filter file or the index file the memtable is lost and the segments stay. -/
theorem makeSnapshot_failure {opened : SnapshotStreams} (hfree : opened.segment = true → NumberFree s.engine)
    (hfail : opened.bloom = false ∨ opened.index = false) :
    ∃ s' what, makeSnapshot P opened s = (s', .error (.runtimeError what)) ∧ Sound P s' segs ∧
      s'.engine.memTable = s.engine.memTable.clear ∧ s'.engine.opts = s.engine.opts := by
  have hcovers := h.covers.mono (BloomFilter.le_addAll P s.engine.bloomFilter
    (s.engine.memTable.createSortedStringsTable.rows.map SSTableRow.key))
  -- the store after the first block, which keeps the segments whether its file opened or not
  have hsegment : Sound P (snapshotSegment opened.segment s.engine.segmentId s) segs := by
    unfold snapshotSegment
    cases hopened : opened.segment with
    | false => exact h.withMemTable _
    | true =>
      have hdisk := h.persisted.writeSegment (h.numberFree_iff.mp (hfree hopened)) s.engine.memTable.dump
      exact {
        index := h.index
        files := hdisk.files
        covers := h.covers
        persisted := hdisk
        segmentDir := by simpa [Disk.writeSegment] using h.segmentDir
        indexDir := h.indexDir
        options := h.options
        compressor := h.compressor
        hasher := h.hasher }
  let bloomFilter := s.engine.bloomFilter.addAll P
    (s.engine.memTable.createSortedStringsTable.rows.map SSTableRow.key)
  cases hb : opened.bloom with
  | false =>
    refine ⟨{ snapshotSegment opened.segment s.engine.segmentId s with
      engine := { s.engine with
        segmentId := s.engine.segmentId + 1
        memTable := s.engine.memTable.clear
        bloomFilter := bloomFilter } }, "invalid output stream", ?_, ?_, rfl, rfl⟩
    · simp only [makeSnapshot, snapshotSegment, snapshotBloom, hb, Bool.false_eq_true, if_false, bloomFilter]
    · exact { hsegment with index := h.index, files := hsegment.files, covers := hcovers }
  | true =>
    have hi : opened.index = false := hfail.resolve_left (by simp [hb])
    have hdisk := hsegment.persisted.writeBloom bloomFilter.dump (by
      rw [filterOnDisk_dump]
      exact hcovers)
    refine ⟨{ disk := (snapshotSegment opened.segment s.engine.segmentId s).disk.writeBloom bloomFilter.dump
              engine := { s.engine with
                segmentId := s.engine.segmentId + 1
                memTable := s.engine.memTable.clear
                bloomFilter := bloomFilter } }, "invalid output stream", ?_, ?_, rfl, rfl⟩
    · simp only [makeSnapshot, snapshotSegment, snapshotBloom, snapshotIndex, hb, hi, if_true,
        Bool.false_eq_true, if_false, bloomFilter]
    · exact { hsegment with
        index := h.index
        files := hdisk.files
        covers := hcovers
        persisted := hdisk }

end makeSnapshot

end OmxDb
