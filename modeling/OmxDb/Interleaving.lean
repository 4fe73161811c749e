import OmxDb.Flushing

/-!
# Writers of different keys

Insertion ids number all writes, so two interleavings of the same writers build different maps. Nothing of it is
flushed: of a key the table has the newest row, which the writes of the key decide, and the rows come in the order
of their keys (`table_congr`). The one table that lookups do not decide by themselves is that of a memtable with no
key but `npos`, and it is empty whatever the rows.
-/

namespace OmxDb

theorem ascending_ext {rows rows' : List SSTableRow} (hsorted : rows.Pairwise fun a b => a.key < b.key)
    (hsorted' : rows'.Pairwise fun a b => a.key < b.key)
    (hfind : ∀ key, (rows.find? fun row => row.key = key) = rows'.find? fun row => row.key = key) :
    rows = rows' := by
  have hmem : ∀ row, row ∈ rows ↔ row ∈ rows' := by
    intro row
    constructor
    · intro h
      apply List.mem_of_find?_eq_some
      rw [← hfind]
      exact find?_of_ascending hsorted h
    · intro h
      apply List.mem_of_find?_eq_some
      rw [hfind]
      exact find?_of_ascending hsorted' h
  have hnodup {list : List SSTableRow} (h : list.Pairwise fun a b => a.key < b.key) : list.Nodup := by
    apply h.imp
    intro a b hlt heq
    exact lt_irrefl _ (heq ▸ hlt)
  have hperm : rows.Perm rows' :=
    (List.perm_ext_iff_of_nodup (hnodup hsorted) (hnodup hsorted')).mpr hmem
  refine hperm.eq_of_pairwise ?_ hsorted hsorted'
  intro a b _ _ hlt hlt'
  exact absurd hlt (lt_asymm hlt')

namespace MemTable

theorem HasOrdinaryKey.congr {m m' : MemTable} (hm : m.HasOrdinaryKey)
    (h : ∀ key, m.findRow key = m'.findRow key) : m'.HasOrdinaryKey := by
  obtain ⟨entry, hmem, hid⟩ := hm
  have hfound : m'.findRow entry.1.key ≠ none := by
    rw [← h]
    exact findRow_ne_none hmem
  obtain ⟨row, hrow⟩ := Option.ne_none_iff_exists'.mp hfound
  exact hasOrdinaryKey_of_findRow hrow hid

theorem table_congr {m m' : MemTable} (h : ∀ key, m.findRow key = m'.findRow key) :
    m.createSortedStringsTable = m'.createSortedStringsTable := by
  apply congrArg SSTable.mk
  by_cases hm : m.HasOrdinaryKey
  · apply ascending_ext m.sortedStringsTable_sorted m'.sortedStringsTable_sorted
    intro key
    rw [find?_sortedStringsTable hm, find?_sortedStringsTable (hm.congr h), h]
  · have hm' : ¬ m'.HasOrdinaryKey := fun hm' => hm (hm'.congr fun key => (h key).symm)
    exact (sortedStringsTable_eq_nil hm).trans (sortedStringsTable_eq_nil hm').symm

/-- A fresh memtable after the writes. -/
def filled (writes : List Write) : MemTable := writes.foldl write {}

theorem findRow_filled (writes : List Write) (key : Key) :
    (filled writes).findRow key = lastRow (writes.map Write.row) key := by
  have hfold : ∀ m : MemTable, (writes.foldl write m).findRow key
      = (lastRow (writes.map Write.row) key).or (m.findRow key) := by
    induction writes with
    | nil =>
      intro m
      rfl
    | cons w writes ih =>
      intro m
      have hwrite : (m.write w).findRow key = if w.row.key = key then some w.row else m.findRow key := by
        unfold findRow
        rw [(write_eq m w).1]
        exact findRow_insertRow m w.row key
      rw [List.foldl_cons, ih, hwrite, List.map_cons, lastRow_cons, Option.or_assoc]
      by_cases hkey : w.row.key = key <;> simp [hkey]
  rw [filled, hfold, findRow_empty, Option.or_none]

theorem lastRow_writes (writes : List Write) (key : Key) :
    lastRow (writes.map Write.row) key = (writes.filter fun w => w.row.key = key).getLast?.map Write.row := by
  unfold lastRow
  rw [← List.head?_filter, List.filter_reverse, List.head?_reverse, List.filter_map, List.getLast?_map]
  rfl

/-- Two sequences with the same writes to each key, in the same order, leave the same on disk: the same dump, the
same table and, under every file id, the same answers of either index built from it. -/
theorem flush_interleaved (writes writes' : List Write)
    (h : ∀ key, writes.filter (fun w => w.row.key = key) = writes'.filter fun w => w.row.key = key) :
    (filled writes).dump = (filled writes').dump ∧
    (filled writes).createSortedStringsTable = (filled writes').createSortedStringsTable ∧
    (∀ fileId key, (SSTableIndex.ofTable fileId (filled writes).createSortedStringsTable).get key
      = (SSTableIndex.ofTable fileId (filled writes').createSortedStringsTable).get key) ∧
    ∀ fileId key, ((filled writes).createSortedStringsTableIndex fileId).get key
      = ((filled writes').createSortedStringsTableIndex fileId).get key := by
  have htable : (filled writes).createSortedStringsTable = (filled writes').createSortedStringsTable := by
    apply table_congr
    intro key
    rw [findRow_filled, findRow_filled, lastRow_writes, lastRow_writes, h]
  refine ⟨?_, htable, ?_, ?_⟩
  · rw [dump_eq, dump_eq, htable]
  · intro fileId key
    rw [htable]
  · intro fileId key
    rw [(builders_agree _ fileId).1, (builders_agree _ fileId).1, htable]

theorem flush_interleaved_two :
    (filled [.put ⟨1⟩ (.single 97) (0, 0), .remove ⟨2⟩]).dump
      = (filled [.remove ⟨2⟩, .put ⟨1⟩ (.single 97) (0, 0)]).dump := by
  refine (flush_interleaved _ _ ?_).1
  intro key
  by_cases hone : (⟨1⟩ : Key) = key
  · subst hone
    rfl
  · by_cases htwo : (⟨2⟩ : Key) = key <;> simp [Write.row, hone, htwo]

end MemTable

end OmxDb
