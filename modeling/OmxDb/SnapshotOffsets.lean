import OmxDb.Flushing
import OmxDb.History

/-!
# Offsets in a snapshot

Row sizes, value sizes and the memtable limit are 64 bits wide; the offset and the size in a hint are 32. No
function checks that the narrowing is exact. What a snapshot writes is bounded by the memory the limit admits only
up to the put that reaches it, whose value has any length, and a limit of `2 ^ 32` or more admits any number of rows.
`snapshotsExact_iff` is the exact condition on a history, by what the memtable holds before a put that reaches the
limit and by the size of the new row (`sizesWith`): every row is shorter than `2 ^ 32` bytes, and so are the rows
before the last one together.
-/

namespace OmxDb

open StorageEngine

/-! ### Sizes of tables -/

theorem getRowSize_eq (row : SSTableRow) : row.getRowSize = 35 + row.value.size := by
  unfold SSTableRow.getRowSize
  omega

theorem length_serializeAll (rows : List SSTableRow) :
    (serializeAll rows).length = (rows.map SSTableRow.getRowSize).sum := by
  induction rows with
  | nil => rfl
  | cons row rows ih =>
    rw [serializeAll_cons, List.length_append, length_serialize, ih, List.map_cons, List.sum_cons]

/-- Each size is below `2 ^ 32`, and so is the sum of those before the last. -/
def SizesFit (sizes : List Nat) : Prop := (∀ size ∈ sizes, size < 2 ^ 32) ∧ sizes.dropLast.sum < 2 ^ 32

theorem rowsFit_iff (rows : List SSTableRow) : RowsFit rows ↔ SizesFit (rows.map SSTableRow.getRowSize) := by
  unfold SizesFit
  rw [← List.map_dropLast, ← length_serializeAll]
  constructor
  · intro hfits
    refine ⟨?_, ?_⟩
    · intro size hmem
      obtain ⟨row, hrow, rfl⟩ := List.mem_map.mp hmem
      obtain ⟨before, after, hrows⟩ := List.append_of_mem hrow
      exact (hfits before row after hrows).2
    · rcases rows.eq_nil_or_concat with rfl | ⟨before, row, rfl⟩
      · decide
      · rw [List.concat_eq_append, List.dropLast_concat]
        exact (hfits before row [] (List.concat_eq_append ..)).1
  · rintro ⟨hsizes, hsum⟩ before row after rfl
    refine ⟨?_, hsizes _ (List.mem_map_of_mem (by simp))⟩
    rw [List.dropLast_append_of_ne_nil (List.cons_ne_nil row after), serializeAll_append, List.length_append] at hsum
    omega

/-! ### Sizes held behind a write -/

namespace MemTable

/-- The keys of the map, each once, in order. -/
def heldKeys (m : MemTable) : List Key := (m.map.entries.map fun entry => entry.1.key).dedup

/-- The keys held once `key` is written too. -/
def keysWith (m : MemTable) (key : Key) : List Key :=
  m.heldKeys.filter (· < key) ++ key :: m.heldKeys.filter (key < ·)

/-- The size of the newest row of a key. -/
def heldSize (m : MemTable) (key : Key) : Nat := ((m.findRow key).map SSTableRow.getRowSize).getD 0

/-- The sizes of the newest rows in key order, once a row of `size` bytes is written under `key`. -/
def sizesWith (m : MemTable) (key : Key) (size : Nat) : List Nat :=
  (m.keysWith key).map (Function.update m.heldSize key size)

theorem mem_heldKeys {m : MemTable} {key : Key} : key ∈ m.heldKeys ↔ (m.findRow key).isSome := by
  unfold heldKeys
  rw [List.mem_dedup, List.mem_map, findRow, Option.isSome_map, List.find?_isSome]
  constructor
  · rintro ⟨entry, hmem, rfl⟩
    exact ⟨entry, hmem, InsertKey.equivalent_iff.mpr rfl⟩
  · rintro ⟨entry, hmem, hkey⟩
    exact ⟨entry, hmem, InsertKey.equivalent_iff.mp hkey⟩

theorem heldKeys_sorted (m : MemTable) : m.heldKeys.Pairwise (· < ·) := by
  have hle : m.heldKeys.Pairwise (· ≤ ·) :=
    (List.pairwise_map.mpr m.entries_sorted).sublist (List.dedup_sublist _)
  exact (hle.and (List.nodup_dedup _)).imp fun h => lt_of_le_of_ne h.1 h.2

theorem mem_keysWith {m : MemTable} {key key' : Key} :
    key' ∈ m.keysWith key ↔ key' = key ∨ (m.findRow key').isSome := by
  unfold keysWith
  rw [List.mem_append, List.mem_cons, List.mem_filter, List.mem_filter, mem_heldKeys, decide_eq_true_eq,
    decide_eq_true_eq]
  constructor
  · rintro (⟨h, -⟩ | h | ⟨h, -⟩)
    · exact Or.inr h
    · exact Or.inl h
    · exact Or.inr h
  · rintro (h | h)
    · exact Or.inr (Or.inl h)
    · rcases lt_trichotomy key' key with hlt | heq | hlt
      · exact Or.inl ⟨h, hlt⟩
      · exact Or.inr (Or.inl heq)
      · exact Or.inr (Or.inr ⟨h, hlt⟩)

theorem keysWith_sorted (m : MemTable) (key : Key) : (m.keysWith key).Pairwise (· < ·) := by
  unfold keysWith
  refine List.pairwise_append.mpr ⟨m.heldKeys_sorted.filter _, ?_, ?_⟩
  · refine List.pairwise_cons.mpr ⟨?_, m.heldKeys_sorted.filter _⟩
    intro larger hmem
    simpa using (List.mem_filter.mp hmem).2
  · intro smaller hsmaller other hother
    have hlt : smaller < key := by simpa using (List.mem_filter.mp hsmaller).2
    rcases List.mem_cons.mp hother with rfl | hother
    · exact hlt
    · exact lt_trans hlt (by simpa using (List.mem_filter.mp hother).2)

theorem hasOrdinaryKey_writeRow {m : MemTable} {row : SSTableRow} :
    (m.writeRow row).HasOrdinaryKey ↔ row.key.id ≠ npos ∨ m.HasOrdinaryKey := by
  constructor
  · rintro ⟨entry, hmem, hid⟩
    rcases OrderedMap.mem_of_mem_insertEntry hmem with rfl | hmem
    · exact Or.inl hid
    · exact Or.inr ⟨entry, hmem, hid⟩
  · rintro (hid | ⟨entry, hmem, hid⟩)
    · exact hasOrdinaryKey_of_findRow (by rw [findRow_writeRow, if_pos rfl]) hid
    · exact ⟨entry, OrderedMap.mem_insertEntry_of_mem hmem, hid⟩

theorem sizes_writeRow {m : MemTable} {row : SSTableRow} (h : (m.writeRow row).HasOrdinaryKey) :
    (m.writeRow row).createSortedStringsTable.rows.map SSTableRow.getRowSize
      = m.sizesWith row.key row.getRowSize := by
  have hfind := find?_sortedStringsTable h
  have hsorted := sortedStringsTable_sorted (m.writeRow row)
  have hnewest : ∀ row' ∈ (m.writeRow row).createSortedStringsTable.rows,
      (m.writeRow row).findRow row'.key = some row' := fun _ => findRow_of_mem_sortedStringsTable h
  generalize (m.writeRow row).createSortedStringsTable.rows = rows at hfind hsorted hnewest
  have hkeys : rows.map SSTableRow.key = m.keysWith row.key := by
    refine (List.pairwise_map.mpr hsorted).eq_of_mem_iff (m.keysWith_sorted row.key) fun key => ?_
    have hmem : key ∈ rows.map SSTableRow.key ↔ (rows.find? fun row => row.key = key).isSome := by
      simp [List.find?_isSome]
    rw [hmem, mem_keysWith, hfind, findRow_writeRow]
    split_ifs with hkey
    · simp [hkey]
    · exact (or_iff_right fun h => hkey h.symm).symm
  unfold sizesWith
  rw [← hkeys, List.map_map]
  refine List.map_congr_left fun row' hmem => ?_
  -- the row is the one the lookup of its key finds
  have hrow := hnewest row' hmem
  rw [findRow_writeRow] at hrow
  rw [Function.comp_apply, Function.update_apply]
  split_ifs at hrow with hkey
  · rw [if_pos hkey.symm, Option.some.inj hrow]
  · rw [if_neg (Ne.symm hkey), heldSize, hrow]
    rfl

end MemTable

/-! ### Hints of a table -/

/-- Every row of the table has a place and a size below `2 ^ 32`, and its hint in the index holds them. -/
def HintsExact (fileId : UInt32) (table : SSTable) : Prop :=
  ∀ before row after, table.rows = before ++ row :: after →
    (serializeAll before).length ≤ 2 ^ 32 - 1 ∧ row.getRowSize ≤ 2 ^ 32 - 1 ∧
    ∃ hint, (SSTableIndex.ofTable fileId table).get row.key = some hint ∧
      hint.offset.toNat = (serializeAll before).length ∧ hint.size.toNat = row.getRowSize

theorem hintsExact_iff (fileId : UInt32) (m : MemTable) :
    HintsExact fileId m.createSortedStringsTable ↔
      SizesFit (m.createSortedStringsTable.rows.map SSTableRow.getRowSize) := by
  rw [← rowsFit_iff]
  constructor
  · intro h before row after hrows
    obtain ⟨hoffset, hsize, -⟩ := h before row after hrows
    omega
  · intro hfits before row after hrows
    obtain ⟨hoffset, hsize⟩ := hfits before row after hrows
    exact ⟨by omega, by omega, _, SSTableIndex.get_ofTable fileId _ m.sortedStringsTable_sorted hrows,
      UInt32.toNat_ofNat_of_lt hoffset, UInt32.toNat_ofNat_of_lt hsize⟩

/-! ### Histories -/

/-- The table a put builds an index of: behind the segment and the filter file of a snapshot. -/
def indexedTable (opened : SnapshotStreams) (s : Store) (key : Key) (value : ByteString) : Option SSTable :=
  match putRow s key value with
  | .error _ => none
  | .ok s =>
    if snapshotDue s && opened.bloom then some s.engine.memTable.createSortedStringsTable else none

theorem snapshotDue_write (s : Store) (row : SSTableRow) :
    snapshotDue (s.write row)
      = decide (s.engine.memTableLimit ≤ s.engine.memTable.memorySize + (35 + row.value.size)) := by
  rw [← getRowSize_eq]
  rfl

/-- The index a put builds holds the exact place of every row. -/
def SnapshotExact (w : World) : Event → Prop
  | .put opened key value => ∀ e table, w.engine = some e →
      indexedTable opened ⟨w.disk, e⟩ key value = some table → HintsExact (UInt32.ofNat e.segmentId) table
  | _ => True

/-- Where a put takes a snapshot, the newest rows the memtable holds and the row put, one of each key and in key
order, are below `2 ^ 32` bytes and start below `2 ^ 32`. A memtable of the key `npos` alone is not written. -/
def SnapshotSizesFit (w : World) : Event → Prop
  | .put opened key value => ∀ e compressor hasher compressed, w.engine = some e →
      e.compressor = some compressor → e.hasher = some hasher → compressor.compress value = .ok compressed →
      e.memTableLimit ≤ e.memTable.memorySize + (35 + compressed.size) → opened.bloom = true →
      (key.id ≠ npos ∨ e.memTable.HasOrdinaryKey) →
      SizesFit (e.memTable.sizesWith key (35 + compressed.size))
  | _ => True

/-- The table a put builds an index of, from the store before it. -/
theorem indexedTable_eq_some {opened : SnapshotStreams} {s : Store} {key : Key} {value : ByteString}
    {table : SSTable} :
    indexedTable opened s key value = some table ↔
      ∃ compressor hasher compressed, s.engine.compressor = some compressor ∧ s.engine.hasher = some hasher ∧
        compressor.compress value = .ok compressed ∧
        s.engine.memTableLimit ≤ s.engine.memTable.memorySize + (35 + compressed.size) ∧ opened.bloom = true ∧
        (s.engine.memTable.writeRow ⟨key, compressed, .Put, hasher.hash compressed⟩).createSortedStringsTable
          = table := by
  unfold indexedTable
  constructor
  · intro h
    cases hcompressor : s.engine.compressor with
    | none => simp [putRow, hcompressor] at h
    | some compressor =>
      cases hcompress : compressor.compress value with
      | error fault => simp [putRow, hcompressor, hcompress] at h
      | ok compressed =>
        cases hhasher : s.engine.hasher with
        | none => simp [putRow, hcompressor, hcompress, hhasher] at h
        | some hasher =>
          rw [putRow_eq key hcompressor hhasher hcompress] at h
          simp only [Bool.and_eq_true, Option.ite_none_right_eq_some, Option.some.injEq] at h
          obtain ⟨⟨hdue, hbloom⟩, htable⟩ := h
          refine ⟨compressor, hasher, compressed, rfl, rfl, hcompress, ?_, hbloom, htable⟩
          rw [snapshotDue_write] at hdue
          exact of_decide_eq_true hdue
  · rintro ⟨compressor, hasher, compressed, hcompressor, hhasher, hcompress, hlimit, hbloom, rfl⟩
    rw [putRow_eq key hcompressor hhasher hcompress]
    simp only [snapshotDue_write, hbloom, Bool.and_true]
    exact if_pos (decide_eq_true hlimit)

theorem snapshotExact_put_iff (w : World) (opened : SnapshotStreams) (key : Key) (value : ByteString) :
    SnapshotExact w (.put opened key value) ↔ SnapshotSizesFit w (.put opened key value) := by
  constructor
  · intro h e compressor hasher compressed hengine hcompressor hhasher hcompress hlimit hbloom hordinary
    have htable := h e _ hengine (indexedTable_eq_some.mpr
      ⟨compressor, hasher, compressed, hcompressor, hhasher, hcompress, hlimit, hbloom, rfl⟩)
    rw [hintsExact_iff, MemTable.sizes_writeRow (MemTable.hasOrdinaryKey_writeRow.mpr hordinary),
      getRowSize_eq] at htable
    exact htable
  · intro h e table hengine htable
    obtain ⟨compressor, hasher, compressed, hcompressor, hhasher, hcompress, hlimit, hbloom, rfl⟩ :=
      indexedTable_eq_some.mp htable
    rw [hintsExact_iff]
    by_cases hordinary : key.id ≠ npos ∨ e.memTable.HasOrdinaryKey
    · rw [MemTable.sizes_writeRow (MemTable.hasOrdinaryKey_writeRow.mpr hordinary), getRowSize_eq]
      exact h e compressor hasher compressed hengine hcompressor hhasher hcompress hlimit hbloom hordinary
    · rw [MemTable.sortedStringsTable_eq_nil (fun h => hordinary (MemTable.hasOrdinaryKey_writeRow.mp h))]
      exact (rowsFit_iff []).mp (rowsFit_of_length (by decide))

/-- In a history the hints of every snapshot are exact if and only if every snapshot fits. -/
theorem snapshotsExact_iff (P : Platform) (events : List Event) :
    Runs.Meets (step P) SnapshotExact {} events ↔ Runs.Meets (step P) SnapshotSizesFit {} events := by
  have hevent : ∀ w event, SnapshotExact w event ↔ SnapshotSizesFit w event := by
    intro w event
    cases event with
    | put opened key value => exact snapshotExact_put_iff w opened key value
    | _ => exact Iff.rfl
  constructor
  · exact Runs.Meets.mono fun w event => (hevent w event).mp
  · exact Runs.Meets.mono fun w event => (hevent w event).mpr

theorem four_gib_lt : 2 ^ 32 < 2 ^ 63 := by decide

/-- A value of `2 ^ 32` bytes: its hint says 35. -/
theorem not_snapshotsExact_long_value :
    ¬ Runs.Meets (step plainPlatform) SnapshotExact {}
      [.open plainOptions, .put {} ⟨1⟩ (ByteString.zeros (2 ^ 32) four_gib_lt)] := by
  rintro ⟨-, hput, -⟩
  obtain ⟨e, hengine, htable⟩ : ∃ e, (step plainPlatform {} (.open plainOptions)).engine = some e ∧
      ∀ value, indexedTable {} ⟨(step plainPlatform {} (.open plainOptions)).disk, e⟩ ⟨1⟩ value
        = some ⟨[⟨⟨1⟩, value, .Put, (0, 0)⟩]⟩ := ⟨_, rfl, fun value => rfl⟩
  have hlong : ∀ value : ByteString, value.size = 2 ^ 32 →
      ¬ SSTableRow.getRowSize ⟨⟨1⟩, value, .Put, (0, 0)⟩ ≤ 2 ^ 32 - 1 := by
    intro value hvalue
    unfold SSTableRow.getRowSize
    dsimp only
    omega
  apply hlong _ (ByteString.size_zeros _ four_gib_lt)
  exact (hput e _ hengine (htable _) [] _ [] rfl).2.1

end OmxDb
