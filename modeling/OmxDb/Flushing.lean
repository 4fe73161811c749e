import OmxDb.MemTableRuns
import OmxDb.Segments

/-!
# Flushing a memtable

Three loops walk the map and skip versions: `createSortedStringsTable` collects rows, `dump` writes them and
`createSortedStringsTableIndex` records where they start. They keep the same rows (`newestRows`), so the two ways to
an index and the two ways to the bytes agree whatever the sizes (`builders_agree`), and below `2 ^ 32` bytes every
hint is the place of its row (`layout_agrees`). Which rows they keep is another matter: the previous key is
`npos` before there is one, so a memtable that holds this key alone is flushed to nothing, and
`flushKeepsNewest_iff` says that nothing else goes wrong.
-/

namespace OmxDb

open LittleEndian

/-- The bytes `dump` writes, row by row. -/
def SSTable.dump (table : SSTable) : List UInt8 :=
  table.rows.foldl (fun stream row => stream ++ serialize row) []

theorem SSTable.dump_eq (table : SSTable) : table.dump = serializeAll table.rows := by
  have hfold : ∀ (stream : List UInt8) (rows : List SSTableRow),
      rows.foldl (fun stream row => stream ++ serialize row) stream = stream ++ serializeAll rows := by
    intro stream rows
    induction rows generalizing stream with
    | nil => simp
    | cons row rows ih => rw [List.foldl_cons, ih, serializeAll_cons, List.append_assoc]
  exact hfold [] table.rows

namespace MemTable

/-! ### Two builders -/

/-- The loop of `createSortedStringsTableIndex`; its offset has the width of `size_t`. -/
def createIndexLoop (prevKeyId offset : UInt64) (index : SSTableIndex) :
    List (InsertKey Key × SSTableRow) → SSTableIndex
  | [] => index
  | (insertKey, row) :: entries =>
    if prevKeyId = insertKey.key.id then createIndexLoop prevKeyId offset index entries
    else
      let size := UInt64.ofNat row.getRowSize
      createIndexLoop insertKey.key.id (offset + size)
        (index.insert insertKey.key ⟨offset.toUInt32, size.toUInt32⟩) entries

def createSortedStringsTableIndex (m : MemTable) (fileId : UInt64) : SSTableIndex :=
  createIndexLoop npos 0 { fileId := fileId.toUInt32 } m.map.entries

/-- The offsets of the one loop are those of the other modulo `2 ^ 32`. -/
theorem createIndexLoop_eq (prevKeyId offset : UInt64) (index : SSTableIndex)
    {entries : List (InsertKey Key × SSTableRow)} (hkeys : ∀ entry ∈ entries, entry.1.key = entry.2.key) :
    createIndexLoop prevKeyId offset index entries
      = index.insertRows offset.toUInt32 (newestRows prevKeyId entries) := by
  induction entries generalizing prevKeyId offset index with
  | nil => rfl
  | cons entry entries ih =>
    obtain ⟨insertKey, row⟩ := entry
    have hkeys' : ∀ entry ∈ entries, entry.1.key = entry.2.key :=
      fun entry hmem => hkeys entry (List.mem_cons_of_mem _ hmem)
    rw [createIndexLoop, newestRows]
    split_ifs
    · exact ih _ _ _ hkeys'
    · have hkey : insertKey.key = row.key := hkeys (insertKey, row) (by simp)
      have hsize : (UInt64.ofNat row.getRowSize).toUInt32 = UInt32.ofNat row.getRowSize := by simp
      rw [ih _ _ _ hkeys', SSTableIndex.insertRows, UInt64.toUInt32_add, hsize, hkey]

/-- Both builders give the same table, and both dumps write the same bytes. -/
theorem builders_agree (m : MemTable) (fileId : UInt64) :
    (∀ key, (m.createSortedStringsTableIndex fileId).get key
      = (SSTableIndex.ofTable fileId.toUInt32 m.createSortedStringsTable).get key) ∧
    (m.createSortedStringsTableIndex fileId).getFileId
      = (SSTableIndex.ofTable fileId.toUInt32 m.createSortedStringsTable).getFileId ∧
    m.dump = m.createSortedStringsTable.dump := by
  have htable : m.createSortedStringsTableIndex fileId
      = SSTableIndex.ofTable fileId.toUInt32 m.createSortedStringsTable := by
    unfold createSortedStringsTableIndex SSTableIndex.ofTable
    rw [createIndexLoop_eq npos 0 _ fun entry hmem => (m.wf entry hmem).2, sortedStringsTable_rows]
    rfl
  refine ⟨fun key => by rw [htable], by rw [htable], ?_⟩
  rw [dump_eq, SSTable.dump_eq]

/-! ### Where the rows are -/

theorem exists_row_at {rows : List SSTableRow} {i : Nat} (h : i < (serializeAll rows).length) :
    ∃ before row after, rows = before ++ row :: after ∧ (serializeAll before).length ≤ i ∧
      i < (serializeAll before).length + row.getRowSize := by
  induction rows generalizing i with
  | nil => simp at h
  | cons head rows ih =>
    rw [serializeAll_cons, List.length_append, length_serialize] at h
    rcases Nat.lt_or_ge i head.getRowSize with hlt | hge
    · refine ⟨[], head, rows, rfl, Nat.zero_le i, ?_⟩
      simpa using hlt
    · obtain ⟨before, row, after, hrows, hle, hlt⟩ := ih (i := i - head.getRowSize) (by omega)
      refine ⟨head :: before, row, after, by rw [hrows, List.cons_append], ?_, ?_⟩
      · rw [serializeAll_cons, List.length_append, length_serialize]
        omega
      · rw [serializeAll_cons, List.length_append, length_serialize]
        omega

theorem rows_apart {before after before' after' : List SSTableRow} {row row' : SSTableRow}
    (h : before ++ row :: after = before' ++ row' :: after') (hne : row ≠ row') :
    (serializeAll before).length + row.getRowSize ≤ (serializeAll before').length ∨
      (serializeAll before').length + row'.getRowSize ≤ (serializeAll before).length := by
  have hlength (left right : List SSTableRow) (r : SSTableRow) :
      (serializeAll left).length + r.getRowSize ≤ (serializeAll (left ++ r :: right)).length := by
    rw [serializeAll_append, serializeAll_cons, List.length_append, List.length_append, length_serialize]
    omega
  rcases List.append_eq_append_iff.mp h with ⟨mid, hbefore, htail⟩ | ⟨mid, hbefore, htail⟩
  · cases mid with
    | nil =>
      rw [List.nil_append, List.cons.injEq] at htail
      exact absurd htail.1 hne
    | cons head mid =>
      rw [List.cons_append, List.cons.injEq] at htail
      rw [hbefore, ← htail.1]
      exact Or.inl (hlength before mid row)
  · cases mid with
    | nil =>
      rw [List.nil_append, List.cons.injEq] at htail
      exact absurd htail.1.symm hne
    | cons head mid =>
      rw [List.cons_append, List.cons.injEq] at htail
      rw [hbefore, ← htail.1]
      exact Or.inr (hlength before' mid row')

/-- The slice at the hint of a row is inside the bytes and reads back as the row; the slices of different keys are
disjoint, and every byte is in one. -/
structure LayoutAgrees (P : Platform) (b : List UInt8) (idx : SSTableIndex) (table : SSTable) : Prop where
  readsBack : ∀ row ∈ table.rows, ∃ hint s, idx.get row.key = some hint ∧
    hint.offset.toNat + hint.size.toNat ≤ b.length ∧
    deserialize P (IStream.ofBytes ((b.drop hint.offset.toNat).take hint.size.toNat)) = .ok (row, s)
  disjoint : ∀ row ∈ table.rows, ∀ row' ∈ table.rows, row.key ≠ row'.key → ∀ hint hint',
    idx.get row.key = some hint → idx.get row'.key = some hint' →
    hint.offset.toNat + hint.size.toNat ≤ hint'.offset.toNat ∨
      hint'.offset.toNat + hint'.size.toNat ≤ hint.offset.toNat
  covers : ∀ i < b.length, ∃ row ∈ table.rows, ∃ hint, idx.get row.key = some hint ∧
    hint.offset.toNat ≤ i ∧ i < hint.offset.toNat + hint.size.toNat

/-- Below `2 ^ 32` bytes, the layout of a dump agrees with the index of its table. -/
theorem layout_agrees (P : Platform) (m : MemTable) (fileId : UInt32)
    (hsize : (serializeAll m.createSortedStringsTable.rows).length < 2 ^ 32) :
    LayoutAgrees P m.dump (SSTableIndex.ofTable fileId m.createSortedStringsTable)
      m.createSortedStringsTable := by
  let seg : Segment :=
    ⟨fileId, m.createSortedStringsTable.rows, m.sortedStringsTable_sorted, rowsFit_of_length hsize⟩
  have hdump : m.dump = seg.bytes := m.dump_eq
  rw [hdump]
  refine ⟨?_, ?_, ?_⟩
  · intro row hrow
    obtain ⟨hint, hget, hle, hslice⟩ := Segment.slice_of_find (seg.find_of_mem hrow)
    have hread := deserialize_serialize P row []
    rw [List.append_nil] at hread
    exact ⟨hint, _, hget, hle, by rw [hslice]; exact hread⟩
  · intro row hrow row' hrow' hne hint hint' hget hget'
    obtain ⟨before, after, hrows⟩ := List.append_of_mem hrow
    obtain ⟨before', after', hrows'⟩ := List.append_of_mem hrow'
    obtain ⟨_, hsplit, hoffset, hsize⟩ := seg.hint_of_split hrows
    obtain ⟨_, hsplit', hoffset', hsize'⟩ := seg.hint_of_split hrows'
    cases hget.symm.trans hsplit
    cases hget'.symm.trans hsplit'
    rw [hoffset, hsize, hoffset', hsize']
    refine rows_apart (hrows.symm.trans hrows') ?_
    rintro rfl
    exact hne rfl
  · intro i hi
    obtain ⟨before, row, after, hrows, hle, hlt⟩ := exists_row_at hi
    obtain ⟨hint, hget, hoffset, hsize⟩ := seg.hint_of_split hrows
    refine ⟨row, ?_, hint, hget, ?_, ?_⟩
    · rw [show m.createSortedStringsTable.rows = _ from hrows]
      simp
    · rw [hoffset]
      exact hle
    · rw [hoffset, hsize]
      exact hlt

theorem layout_agrees_twoKeys :
    let m := (((({} : MemTable).put ⟨2⟩ (.single 97) (0, 0)).put ⟨1⟩ (.single 97) (0, 0)).put ⟨2⟩ (.single 98)
      (0, 0)).remove ⟨1⟩
    LayoutAgrees plainPlatform m.dump (SSTableIndex.ofTable 0 m.createSortedStringsTable) m.createSortedStringsTable :=
  layout_agrees plainPlatform _ 0 (by decide)

/-! ### Which rows are kept -/

/-- The table is strictly ascending, has for each key of the map one row, the last one added, and no others; and the
dump is the serialization of its rows. -/
structure FlushKeepsNewest (rows : List SSTableRow) (m : MemTable) : Prop where
  ascending : m.createSortedStringsTable.rows.Pairwise fun a b => a.key < b.key
  newest : ∀ entry ∈ m.map.entries, ∃ row, lastRow rows entry.1.key = some row ∧
    (m.createSortedStringsTable.rows.filter fun row => row.key = entry.1.key) = [row]
  nothingElse : ∀ row ∈ m.createSortedStringsTable.rows, ∃ entry ∈ m.map.entries, entry.1.key = row.key
  dumped : m.dump = serializeAll m.createSortedStringsTable.rows

theorem filter_of_find? {rows : List SSTableRow} (hsorted : rows.Pairwise fun a b => a.key < b.key) {key : Key}
    {row : SSTableRow} (h : rows.find? (fun row => row.key = key) = some row) :
    (rows.filter fun row => row.key = key) = [row] := by
  induction rows with
  | nil => simp at h
  | cons head rows ih =>
    obtain ⟨hhead, htail⟩ := List.pairwise_cons.mp hsorted
    by_cases hkey : head.key = key
    · rw [List.find?_cons_of_pos (by simpa using hkey)] at h
      cases h
      rw [List.filter_cons_of_pos (by simpa using hkey)]
      have hnone : (rows.filter fun row => row.key = key) = [] := by
        rw [List.filter_eq_nil_iff]
        intro other hother
        have hlt := hhead other hother
        rw [hkey] at hlt
        simpa using ne_of_gt hlt
      rw [hnone]
    · rw [List.find?_cons_of_neg (by simpa using hkey)] at h
      rw [List.filter_cons_of_neg (by simpa using hkey)]
      exact ih htail h

theorem newestRows_npos {entries : List (InsertKey Key × SSTableRow)}
    (h : ∀ entry ∈ entries, entry.1.key.id = npos) : newestRows npos entries = [] := by
  induction entries with
  | nil => rfl
  | cons entry entries ih =>
    obtain ⟨insertKey, row⟩ := entry
    have hid : insertKey.key.id = npos := h (insertKey, row) (by simp)
    rw [newestRows, if_pos hid.symm]
    exact ih fun entry hmem => h entry (List.mem_cons_of_mem _ hmem)

theorem sortedStringsTable_eq_nil {m : MemTable} (h : ¬ m.HasOrdinaryKey) : m.createSortedStringsTable.rows = [] := by
  rw [sortedStringsTable_rows]
  apply newestRows_npos
  intro entry hmem
  by_contra hid
  exact h ⟨entry, hmem, hid⟩

namespace Reachable

variable {P : Platform} {rows : List SSTableRow} {m : MemTable}

theorem exists_entry_iff (h : Reachable P rows m) (p : Key → Prop) :
    (∃ entry ∈ m.map.entries, p entry.1.key) ↔ ∃ row ∈ rows, p row.key := by
  constructor
  · rintro ⟨entry, hmem, hp⟩
    refine ⟨entry.2, (h.mem_rows_iff entry.2).mp (List.mem_map_of_mem hmem), ?_⟩
    rw [← (m.wf entry hmem).2]
    exact hp
  · rintro ⟨row, hmem, hp⟩
    obtain ⟨entry, hentry, rfl⟩ := List.mem_map.mp ((h.mem_rows_iff row).mpr hmem)
    refine ⟨entry, hentry, ?_⟩
    rw [(m.wf entry hentry).2]
    exact hp

/-- A flush keeps exactly the newest row of every key if and only if nothing was added or some key added is not
`npos`. -/
theorem flushKeepsNewest_iff (h : Reachable P rows m) :
    FlushKeepsNewest rows m ↔ rows = [] ∨ ∃ row ∈ rows, row.key.id ≠ npos := by
  constructor
  · intro hflush
    rcases List.eq_nil_or_concat rows with hnil | ⟨before, last, hrows⟩
    · exact Or.inl hnil
    refine Or.inr ?_
    by_contra hall
    rw [← h.exists_entry_iff fun key => key.id ≠ npos] at hall
    -- then nothing is flushed, but the last row was added
    have hempty : m.createSortedStringsTable.rows = [] := sortedStringsTable_eq_nil hall
    have hlast : ∃ row ∈ rows, row.key = last.key := ⟨last, by rw [hrows]; simp, rfl⟩
    obtain ⟨entry, hmem, -⟩ := (h.exists_entry_iff fun key => key = last.key).mpr hlast
    obtain ⟨row, -, hfilter⟩ := hflush.newest entry hmem
    rw [hempty] at hfilter
    cases hfilter
  · intro hcond
    have hfind : ∀ key, m.createSortedStringsTable.rows.find? (fun row => row.key = key) = lastRow rows key := by
      intro key
      rw [← h.findRow_eq]
      rcases hcond with rfl | hordinary
      · have hentries : m.map.entries = [] := by
          refine List.eq_nil_iff_forall_not_mem.mpr fun entry hmem => ?_
          exact List.not_mem_nil ((h.mem_rows_iff entry.2).mp (List.mem_map_of_mem hmem))
        rw [sortedStringsTable_rows, findRow, hentries]
        rfl
      · exact find?_sortedStringsTable ((h.exists_entry_iff fun key => key.id ≠ npos).mpr hordinary) key
    refine ⟨m.sortedStringsTable_sorted, ?_, ?_, m.dump_eq⟩
    · intro entry hmem
      obtain ⟨row, hrow, hkey⟩ := (h.exists_entry_iff fun key => key = entry.1.key).mp ⟨entry, hmem, rfl⟩
      cases hlast : lastRow rows entry.1.key with
      | none => exact absurd hkey (lastRow_eq_none.mp hlast row hrow)
      | some last =>
        refine ⟨last, rfl, filter_of_find? m.sortedStringsTable_sorted ?_⟩
        rw [hfind, hlast]
    · intro row hrow
      rw [sortedStringsTable_rows] at hrow
      obtain ⟨insertKey, hmem⟩ := mem_of_mem_newestRows hrow
      exact ⟨_, hmem, (m.wf _ hmem).2⟩

end Reachable

/-- The row of one put of the largest key. -/
def largestKeyRow : SSTableRow := ⟨⟨npos⟩, .single 97, .Put, (0, 0)⟩

/-- One put of the largest key is dropped by the flush. -/
theorem not_flushKeepsNewest_largest :
    Reachable plainPlatform [largestKeyRow] (({} : MemTable).put ⟨npos⟩ (.single 97) (0, 0)) ∧
      ¬ FlushKeepsNewest [largestKeyRow] (({} : MemTable).put ⟨npos⟩ (.single 97) (0, 0)) := by
  refine ⟨Reachable.put _ _ _ Reachable.empty, ?_⟩
  intro h
  obtain ⟨row, -, hfilter⟩ := h.newest (⟨0, ⟨npos⟩⟩, largestKeyRow) (by simp [put, putEntry, insertRow, log,
    OrderedMap.insertEntry, largestKeyRow])
  have hempty : (({} : MemTable).put ⟨npos⟩ (.single 97) (0, 0)).createSortedStringsTable.rows = [] := rfl
  rw [hempty] at hfilter
  cases hfilter

theorem flushKeepsNewest_twoKeys :
    let rows : List SSTableRow := [⟨⟨2⟩, .single 97, .Put, (0, 0)⟩, ⟨⟨1⟩, .single 97, .Put, (0, 0)⟩,
      ⟨⟨2⟩, .single 98, .Put, (0, 0)⟩, ⟨⟨1⟩, ByteString.empty, .Remove, (0, 0)⟩]
    let m := (((({} : MemTable).put ⟨2⟩ (.single 97) (0, 0)).put ⟨1⟩ (.single 97) (0, 0)).put ⟨2⟩ (.single 98)
      (0, 0)).remove ⟨1⟩
    FlushKeepsNewest rows m := by
  intro rows m
  have hreachable : Reachable plainPlatform rows m :=
    Reachable.remove _ (Reachable.put _ _ _ (Reachable.put _ _ _ (Reachable.put _ _ _ Reachable.empty)))
  exact hreachable.flushKeepsNewest_iff.mpr (Or.inr ⟨⟨⟨2⟩, .single 97, .Put, (0, 0)⟩, by simp [rows], by decide⟩)

end MemTable

end OmxDb
