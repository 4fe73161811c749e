import OmxDb.MemTable
import OmxDb.Lib.KeyedMerge

/-!
# Merging two tables

`SSTable::merge` calls `std::merge` without a comparison. Its elements are shared pointers, whose `operator<` compares
addresses, so rows are merged in the order in which they happen to lie in memory; only `std::unique`, behind it, looks
at keys. `mergesNewest_iff` says when the result is the merge of the tables nevertheless: at every comparison of two
rows, their addresses are ordered as their keys, the left row first.
-/

namespace OmxDb

/-- A `std::shared_ptr<SSTableRow>`: where the row lies, and the row. -/
structure SSTableRowPtr where
  address : UInt64
  row : SSTableRow

def SSTableRowPtr.key (ptr : SSTableRowPtr) : Key := ptr.row.key

/-- `operator<` of shared pointers. -/
def SSTableRowPtr.before (lhs rhs : SSTableRowPtr) : Bool := lhs.address < rhs.address

/-- A table with its row pointers. -/
structure SharedTable where
  ptrs : List SSTableRowPtr

namespace SharedTable

def getRowList (table : SharedTable) : List SSTableRow := table.ptrs.map SSTableRowPtr.row

def merge (table other : SharedTable) : SharedTable :=
  ⟨KeyedMerge.unique SSTableRowPtr.key (KeyedMerge.merge SSTableRowPtr.before table.ptrs other.ptrs)⟩

/-- Ascending by key; several rows of a key are allowed. -/
def Sorted (table : SharedTable) : Prop := table.getRowList.Pairwise fun a b => a.key ≤ b.key

end SharedTable

/-- The merged rows are strictly ascending, have the keys of both tables, and each is the first row of its key in
`lhs`, or in `rhs` where `lhs` has none. -/
structure MergesNewest (lhs rhs merged : List SSTableRow) : Prop where
  ascending : merged.Pairwise fun a b => a.key < b.key
  keys : ∀ key, (∃ row ∈ merged, row.key = key) ↔ (∃ row ∈ lhs, row.key = key) ∨ ∃ row ∈ rhs, row.key = key
  newest : ∀ row ∈ merged,
    (lhs.find? fun other => other.key = row.key).or (rhs.find? fun other => other.key = row.key) = some row

/-- Wherever the merge compares a row of `lhs` with one of `rhs`, the row of `rhs` lies lower in memory only if its
key is smaller, or equal and taken already or that of an equal row; and the row of `lhs` goes first only if its key is
not larger. -/
def AddressesFollowKeys (lhs rhs : SharedTable) : Prop :=
  KeyedMerge.Guided SSTableRowPtr.key SSTableRowPtr.row SSTableRowPtr.before none lhs.ptrs rhs.ptrs

theorem first_row (ptrs : List SSTableRowPtr) (key : Key) :
    (KeyedMerge.first SSTableRowPtr.key key ptrs).map SSTableRowPtr.row
      = (ptrs.map SSTableRowPtr.row).find? fun row => row.key = key := by
  rw [List.find?_map, KeyedMerge.first]
  congr 2
  funext ptr
  exact decide_eq_decide.mpr Iff.rfl

theorem exists_key_iff {rows : List SSTableRow} {key : Key} :
    (∃ row ∈ rows, row.key = key) ↔ rows.find? (fun row => row.key = key) ≠ none := by
  simp [List.find?_eq_none]

theorem mergesNewest_iff_firstWins (lhs rhs merged : List SSTableRowPtr) :
    MergesNewest (lhs.map SSTableRowPtr.row) (rhs.map SSTableRowPtr.row) (merged.map SSTableRowPtr.row) ↔
      KeyedMerge.FirstWins SSTableRowPtr.key SSTableRowPtr.row lhs rhs merged := by
  constructor
  · intro h
    have hascending := h.ascending
    rw [List.pairwise_map] at hascending
    refine ⟨hascending, ?_⟩
    intro key
    rw [Option.map_or, first_row, first_row, first_row]
    cases hfind : (merged.map SSTableRowPtr.row).find? (fun row => row.key = key) with
    | some row =>
      have hnewest := h.newest row (List.mem_of_find?_eq_some hfind)
      have hkey : row.key = key := by simpa using List.find?_some hfind
      rw [hkey] at hnewest
      exact hnewest.symm
    | none =>
      have hkeys := h.keys key
      rw [exists_key_iff, exists_key_iff, exists_key_iff] at hkeys
      have hnone := not_or.mp fun hor => hkeys.mpr hor hfind
      rw [not_not.mp hnone.1, not_not.mp hnone.2]
      rfl
  · intro h
    have hascending : (merged.map SSTableRowPtr.row).Pairwise fun a b => a.key < b.key :=
      List.pairwise_map.mpr h.ascending
    have hfirst : ∀ key, (merged.map SSTableRowPtr.row).find? (fun row => row.key = key)
        = ((lhs.map SSTableRowPtr.row).find? fun row => row.key = key).or
          ((rhs.map SSTableRowPtr.row).find? fun row => row.key = key) := by
      intro key
      rw [← first_row, ← first_row, ← first_row, ← Option.map_or]
      exact h.first key
    refine ⟨hascending, ?_, ?_⟩
    · intro key
      rw [exists_key_iff, exists_key_iff, exists_key_iff, hfirst, Ne, Option.or_eq_none_iff, not_and_or]
    · intro row hrow
      rw [← hfirst, find?_of_ascending hascending hrow]

/-- Merging two sorted tables gives the newest row of every key if and only if the addresses follow the keys. -/
theorem mergesNewest_iff {lhs rhs : SharedTable} (hlhs : lhs.Sorted) (hrhs : rhs.Sorted) :
    MergesNewest lhs.getRowList rhs.getRowList (lhs.merge rhs).getRowList ↔ AddressesFollowKeys lhs rhs := by
  unfold SharedTable.Sorted SharedTable.getRowList at hlhs hrhs
  rw [List.pairwise_map] at hlhs hrhs
  unfold SharedTable.getRowList
  rw [mergesNewest_iff_firstWins]
  exact KeyedMerge.firstWins_iff_guided hlhs hrhs

/-- An update and the put it replaces, at two addresses. -/
def updateAt (address : UInt64) : SharedTable := ⟨[⟨address, ⟨⟨0⟩, .single 98, .Put, (0, 0)⟩⟩]⟩

def putAt (address : UInt64) : SharedTable := ⟨[⟨address, ⟨⟨0⟩, .single 97, .Put, (0, 0)⟩⟩]⟩

/-- The older row wins where it lies lower in memory. -/
theorem not_mergesNewest_lower :
    (updateAt 2).Sorted ∧ (putAt 1).Sorted ∧
      ¬ MergesNewest (updateAt 2).getRowList (putAt 1).getRowList ((updateAt 2).merge (putAt 1)).getRowList := by
  refine ⟨List.pairwise_singleton _ _, List.pairwise_singleton _ _, ?_⟩
  have hmerged : ((updateAt 2).merge (putAt 1)).getRowList = (putAt 1).getRowList := by
    simp [SharedTable.merge, SharedTable.getRowList, updateAt, putAt, KeyedMerge.merge, KeyedMerge.unique,
      SSTableRowPtr.before, SSTableRowPtr.key]
  intro h
  rw [hmerged] at h
  have hnewest := h.newest ⟨⟨0⟩, .single 97, .Put, (0, 0)⟩ (by decide)
  revert hnewest
  decide

theorem mergesNewest_higher :
    MergesNewest (updateAt 1).getRowList (putAt 2).getRowList ((updateAt 1).merge (putAt 2)).getRowList := by
  have hsorted : (updateAt 1).Sorted ∧ (putAt 2).Sorted :=
    ⟨List.pairwise_singleton _ _, List.pairwise_singleton _ _⟩
  refine (mergesNewest_iff hsorted.1 hsorted.2).mpr ?_
  simp [AddressesFollowKeys, KeyedMerge.Guided, updateAt, putAt, SSTableRowPtr.before, SSTableRowPtr.key]

end OmxDb
