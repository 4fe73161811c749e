import OmxDb.Replay
import OmxDb.Lib.Selection

/-!
# What a store holds

A store is an ordered pile of rows: the memtable over the segments, newest first. `Segment` is a table that
was written to a segment file whose offsets fit the hints of its index, and `Represents` says that the
index, the filter and the segment files of a store stand for a list of segments. Under it a lookup on disk
is the newest row of the key among the segments (`findOnDisk_eq`), which is how every later proof reads the
files; nothing after this module looks at bytes, hints or filter positions again.
-/

namespace OmxDb

open LittleEndian

/-! ### Names -/

theorem toDecimal_injective {m n : Nat} (h : toDecimal m = toDecimal n) : m = n := by
  have hm : Nat.ofDigitChars 10 (toDecimal m) 0 = m := Nat.ofDigitChars_ten_toDigits
  have hn : Nat.ofDigitChars 10 (toDecimal n) 0 = n := Nat.ofDigitChars_ten_toDigits
  rw [← hm, h, hn]

theorem segmentFile_injective {m n : Nat} (h : segmentFile m = segmentFile n) : m = n :=
  toDecimal_injective (List.append_cancel_left (List.append_cancel_right h))

theorem indexFile_injective {m n : Nat} (h : indexFile m = indexFile n) : m = n :=
  toDecimal_injective (List.append_cancel_left (List.append_cancel_right h))

/-! ### Segments -/

/-- Every row starts before byte `2 ^ 32` and is shorter than that. -/
def RowsFit (rows : List SSTableRow) : Prop :=
  ∀ before row after, rows = before ++ row :: after →
    (serializeAll before).length < 2 ^ 32 ∧ row.getRowSize < 2 ^ 32

theorem rowsFit_of_length {rows : List SSTableRow} (h : (serializeAll rows).length < 2 ^ 32) :
    RowsFit rows := by
  intro before row after hrows
  rw [hrows, serializeAll_append, serializeAll_cons, List.length_append, List.length_append,
    length_serialize] at h
  omega

/-- A table written by a snapshot: rows sorted by key, at offsets the hints can hold. -/
structure Segment where
  fileId : UInt32
  rows : List SSTableRow
  sorted : rows.Pairwise fun a b => a.key < b.key
  fits : RowsFit rows

namespace Segment

def find (seg : Segment) (key : Key) : Option SSTableRow := seg.rows.find? fun row => row.key = key

def bytes (seg : Segment) : List UInt8 := serializeAll seg.rows

/-- The index `makeSnapshot` builds for the segment. -/
def tableIndex (seg : Segment) : SSTableIndex := SSTableIndex.ofTable seg.fileId ⟨seg.rows⟩

@[simp] theorem fileId_tableIndex (seg : Segment) : seg.tableIndex.fileId = seg.fileId :=
  SSTableIndex.fileId_ofTable _ _

theorem key_of_find {seg : Segment} {key : Key} {row : SSTableRow} (h : seg.find key = some row) :
    row.key = key := by
  have hpass := List.find?_some h
  simpa using hpass

theorem mem_of_find {seg : Segment} {key : Key} {row : SSTableRow} (h : seg.find key = some row) :
    row ∈ seg.rows := List.mem_of_find?_eq_some h

theorem get_tableIndex_eq_none {seg : Segment} {key : Key} (h : seg.find key = none) :
    seg.tableIndex.get key = none := SSTableIndex.get_ofTable_of_not seg.fileId ⟨seg.rows⟩ h

theorem hint_of_split (seg : Segment) {before after : List SSTableRow} {row : SSTableRow}
    (hrows : seg.rows = before ++ row :: after) :
    ∃ hint, seg.tableIndex.get row.key = some hint ∧ hint.offset.toNat = (serializeAll before).length ∧
      hint.size.toNat = row.getRowSize := by
  obtain ⟨hoffset, hsize⟩ := seg.fits before row after hrows
  exact ⟨_, SSTableIndex.get_ofTable seg.fileId ⟨seg.rows⟩ seg.sorted hrows,
    UInt32.toNat_ofNat_of_lt hoffset, UInt32.toNat_ofNat_of_lt hsize⟩

/-- The slice at a hint of the index is the serialized row. -/
theorem slice_of_find {seg : Segment} {key : Key} {row : SSTableRow} (h : seg.find key = some row) :
    ∃ hint, seg.tableIndex.get key = some hint ∧
      hint.offset.toNat + hint.size.toNat ≤ seg.bytes.length ∧
      (seg.bytes.drop hint.offset.toNat).take hint.size.toNat = serialize row := by
  obtain ⟨before, after, hrows⟩ := List.append_of_mem (mem_of_find h)
  obtain ⟨hint, hget, hoffset, hsize⟩ := seg.hint_of_split hrows
  rw [key_of_find h] at hget
  refine ⟨hint, hget, ?_, ?_⟩
  · rw [hoffset, hsize, bytes, hrows, serializeAll_append, serializeAll_cons, List.length_append,
      List.length_append, length_serialize]
    omega
  · rw [hoffset, hsize, bytes, hrows, serializeAll_append, List.drop_left, serializeAll_cons,
      ← length_serialize, List.take_left]

theorem find_of_mem {seg : Segment} {row : SSTableRow} (h : row ∈ seg.rows) : seg.find row.key = some row :=
  find?_of_ascending seg.sorted h

theorem get_tableIndex_ne_none {seg : Segment} {key : Key} :
    seg.tableIndex.get key ≠ none ↔ seg.find key ≠ none := by
  constructor
  · intro h hnone
    exact h (get_tableIndex_eq_none hnone)
  · intro h
    obtain ⟨row, hrow⟩ := Option.ne_none_iff_exists'.mp h
    obtain ⟨hint, hget, -⟩ := slice_of_find hrow
    rw [hget]
    exact Option.some_ne_none _

theorem readRow_of_find {P : Platform} {seg : Segment} {disk : Disk} {key : Key} {row : SSTableRow}
    (hfile : disk.segment (segmentFile seg.fileId.toNat) = some seg.bytes)
    (hfind : seg.find key = some row) {hint : FileSearchHint}
    (hhint : seg.tableIndex.get key = some hint) :
    StorageEngine.readRow P disk ⟨seg.fileId, hint.offset, hint.size⟩ = .ok row := by
  obtain ⟨hint', hhint', hle, hslice⟩ := slice_of_find hfind
  rw [hhint] at hhint'
  cases hhint'
  have hread := deserialize_serialize P row []
  rw [List.append_nil] at hread
  have hdrop := List.take_append_drop hint.size.toNat (seg.bytes.drop hint.offset.toNat)
  rw [hslice] at hdrop
  have hsize : (serialize row).length = hint.size.toNat := by
    rw [← hslice, List.length_take, List.length_drop]
    omega
  have hlt : hint.size.toNat < 2 ^ 63 := lt_trans hint.size.toNat_lt (by decide)
  unfold StorageEngine.readRow
  simp only [hfile, openFile, IStream.seekg_ofBytes]
  rw [← hdrop, readString_ofBytes hsize hlt]
  simp only [bind, Except.bind, hread]
  rfl

end Segment

/-! ### Stores -/

/-- The row of a key in the newest segment that has one. -/
def newestRow (segs : List Segment) (key : Key) : Option SSTableRow :=
  segs.findSome? fun seg => seg.find key

@[simp] theorem newestRow_nil (key : Key) : newestRow [] key = none := rfl

theorem newestRow_cons (seg : Segment) (segs : List Segment) (key : Key) :
    newestRow (seg :: segs) key = (seg.find key).or (newestRow segs key) := by
  unfold newestRow
  rw [List.findSome?_cons]
  cases seg.find key <;> rfl

theorem exists_of_newestRow {segs : List Segment} {key : Key} {row : SSTableRow}
    (h : newestRow segs key = some row) : ∃ seg ∈ segs, seg.find key = some row :=
  List.exists_of_findSome?_eq_some h

/-- What a lookup makes of a row: nothing of a tombstone, else its value and checksum. -/
def visible (row : SSTableRow) : Option (ByteString × UInt128) :=
  if row.entryType = .Remove then none else some (row.value, row.checksum)

theorem visible_eq_none_iff {row : SSTableRow} : visible row = none ↔ row.entryType = .Remove := by
  unfold visible
  split_ifs with h <;> simp [h]

theorem MemTable.get_eq (m : MemTable) (key : Key) : m.get key = (m.findRow key).bind visible := by
  unfold MemTable.get
  cases m.findRow key <;> rfl

/-- The filter finds every key of the segments. -/
def Covers (P : Platform) (b : BloomFilter kFilterSize kNumHashes) (segs : List Segment) : Prop :=
  ∀ seg ∈ segs, ∀ row ∈ seg.rows, b.probablyContains P row.key = true

theorem Covers.mono {P : Platform} {b b' : BloomFilter kFilterSize kNumHashes} {segs : List Segment}
    (h : Covers P b segs) (hle : b.Le b') : Covers P b' segs :=
  fun seg hseg row hrow => hle.probablyContains (h seg hseg row hrow)

theorem Covers.contains {P : Platform} {b : BloomFilter kFilterSize kNumHashes} {segs : List Segment}
    (h : Covers P b segs) {key : Key} (hrow : newestRow segs key ≠ none) :
    b.probablyContains P key = true := by
  obtain ⟨row, hrow⟩ := Option.ne_none_iff_exists'.mp hrow
  obtain ⟨seg, hseg, hfind⟩ := exists_of_newestRow hrow
  rw [← Segment.key_of_find hfind]
  exact h seg hseg row (Segment.mem_of_find hfind)

/-- A table of the index answers for the key like the index of the segment. -/
def TableOf (key : Key) (t : SSTableIndex) (seg : Segment) : Prop :=
  t.fileId = seg.fileId ∧ t.get key = seg.tableIndex.get key

/-- Every segment is in its file. -/
def SegmentFiles (disk : Disk) (segs : List Segment) : Prop :=
  ∀ seg ∈ segs, disk.segment (segmentFile seg.fileId.toNat) = some seg.bytes

/-- For one key, the index, the filter and the files of a store stand for the segments, newest first. Only
segments with the key need to be in their files, and only a live row needs the filter. -/
structure RepresentsAt (P : Platform) (s : Store) (segs : List Segment) (key : Key) : Prop where
  index : List.Forall₂ (TableOf key) s.engine.index.tableIndexes segs
  files : ∀ seg ∈ segs, seg.find key ≠ none →
    s.disk.segment (segmentFile seg.fileId.toNat) = some seg.bytes
  covers : (newestRow segs key).bind visible ≠ none → s.engine.bloomFilter.probablyContains P key = true

/-- The index, the filter and the files of a store stand for the segments, newest first. -/
structure Represents (P : Platform) (s : Store) (segs : List Segment) : Prop where
  index : List.Forall₂ (fun t seg => ∀ key, TableOf key t seg) s.engine.index.tableIndexes segs
  files : SegmentFiles s.disk segs
  covers : Covers P s.engine.bloomFilter segs

theorem Represents.at {P : Platform} {s : Store} {segs : List Segment} (h : Represents P s segs)
    (key : Key) : RepresentsAt P s segs key where
  index := h.index.imp fun _ _ ht => ht key
  files seg hseg _ := h.files seg hseg
  covers hlive := by
    apply h.covers.contains
    intro hnone
    simp [hnone] at hlive

theorem getLoop_segments {tables : List SSTableIndex} {segs : List Segment} {key : Key}
    (h : List.Forall₂ (TableOf key) tables segs) :
    (newestRow segs key = none ∧ Index.getLoop key tables = none) ∨
      ∃ seg ∈ segs, ∃ row hint, newestRow segs key = some row ∧ seg.find key = some row ∧
        seg.tableIndex.get key = some hint ∧
        Index.getLoop key tables = some ⟨seg.fileId, hint.offset, hint.size⟩ := by
  induction h with
  | nil => exact Or.inl ⟨rfl, rfl⟩
  | @cons t seg tables segs ht _ ih =>
    obtain ⟨hid, hget⟩ := ht
    rw [newestRow_cons, Index.getLoop, hget]
    cases hfind : seg.find key with
    | some row =>
      obtain ⟨hint, hhint, -⟩ := Segment.slice_of_find hfind
      refine Or.inr ⟨seg, by simp, row, hint, rfl, hfind, hhint, ?_⟩
      simp only [hhint, SSTableIndex.getFileId, hid]
    | none =>
      simp only [Segment.get_tableIndex_eq_none hfind, Option.none_or]
      rcases ih with h | ⟨seg', hmem, h⟩
      · exact Or.inl h
      · exact Or.inr ⟨seg', List.mem_cons_of_mem _ hmem, h⟩

/-- A lookup on disk finds the newest row of the key among the segments. -/
theorem findOnDisk_eq {P : Platform} {s : Store} {segs : List Segment} {key : Key}
    (h : RepresentsAt P s segs key) :
    StorageEngine.findOnDisk P s key = .ok ((newestRow segs key).bind visible) := by
  unfold StorageEngine.findOnDisk Index.get
  rcases getLoop_segments h.index with ⟨hnone, hloop⟩ |
    ⟨seg, hmem, row, hint, hnewest, hfind, hhint, hloop⟩
  · simp [hnone, hloop]
  · have hfile := h.files seg hmem (by rw [hfind]; exact Option.some_ne_none _)
    have hread := Segment.readRow_of_find (P := P) hfile hfind hhint
    by_cases hlive : visible row = none
    · -- a tombstone is not found, whatever the filter says
      have hremove := visible_eq_none_iff.mp hlive
      simp [hloop, hread, hnewest, visible, hremove]
    · have hcovers := h.covers (by rw [hnewest]; exact hlive)
      simp [hloop, hcovers, hread, hnewest, visible]

/-- What `get` finds before it checks and decompresses: the memtable first, and only a memtable without a
live row of the key falls through to the segments. -/
def found (m : MemTable) (segs : List Segment) (key : Key) : Option (ByteString × UInt128) :=
  ((m.findRow key).bind visible).or ((newestRow segs key).bind visible)

theorem get_eq {P : Platform} {s : Store} {segs : List Segment} {key : Key}
    (h : RepresentsAt P s segs key) :
    StorageEngine.get P s key = StorageEngine.finishGet s.engine (found s.engine.memTable segs key) := by
  unfold StorageEngine.get StorageEngine.findInMemory found
  rw [findOnDisk_eq h, MemTable.get_eq]
  cases (s.engine.memTable.findRow key).bind visible <;> rfl

end OmxDb
