import OmxDb.Flushing

/-!
# Streams of rows

A stream of rows has no count and no terminator. Two loops read it, `SSTable::load` and `restoreFromLog`; both
test for the end before a row and peek behind it, and they differ only in where a row goes, so what they read is
`readRows` of either (`loadLoop_eq`, `restoreLoop_eq`). Behind the last of the rows that were written the peek
meets the end, and the loops stop with exactly these rows (`rows_round_trip`).
-/

namespace OmxDb

/-! ### Loading a table -/

namespace SSTable

/-- The loop of `load`; the fuel counts the tests of the loop condition. -/
def loadLoop (P : Platform) : Nat → SSTable → IStream → Except Fault SSTable
  | 0, _, _ => .error .diverges
  | fuel + 1, table, stream =>
    if stream.eof then .ok table
    else match deserialize P stream with
      | .error fault => .error fault
      | .ok (row, stream) => loadLoop P fuel (table.append row) stream.peek

def load (P : Platform) (table : SSTable) (stream : IStream) : Except Fault SSTable :=
  loadLoop P (stream.rest.length + 2) table stream

/-- The rows read are those of the replay loop, appended in the order they are read. -/
theorem loadLoop_eq (P : Platform) (fuel : Nat) (table : SSTable) (stream : IStream) :
    loadLoop P fuel table stream
      = (MemTable.readRows P fuel stream).2.map fun _ => ⟨table.rows ++ (MemTable.readRows P fuel stream).1⟩ := by
  induction fuel generalizing table stream with
  | zero => rfl
  | succ fuel ih =>
    rw [loadLoop, MemTable.readRows]
    split
    · simp [Except.map]
    · cases deserialize P stream with
      | error fault => rfl
      | ok read =>
        refine (ih (table.append read.1) read.2.peek).trans ?_
        simp only [append, List.append_assoc, List.singleton_append]

end SSTable

/-! ### Consecutive ids -/

namespace MemTable

/-- The rows under insertion keys with the ids from `counter` on. -/
def numbered : Nat → List SSTableRow → List (InsertKey Key × SSTableRow)
  | _, [] => []
  | counter, row :: rows => (⟨counter, row.key⟩, row) :: numbered (counter + 1) rows

theorem counter_insertAll (m : MemTable) (rows : List SSTableRow) :
    (m.insertAll rows).counter = m.counter + rows.length := by
  induction rows generalizing m with
  | nil => rfl
  | cons row rows ih =>
    rw [insertAll_cons, ih, List.length_cons]
    show m.counter + 1 + rows.length = m.counter + (rows.length + 1)
    omega

theorem entries_insertAll (m : MemTable) (rows : List SSTableRow) :
    (m.insertAll rows).map.entries.Perm (numbered m.counter rows ++ m.map.entries) := by
  induction rows generalizing m with
  | nil => exact List.Perm.refl _
  | cons row rows ih =>
    have hperm : (m.insertRow row).map.entries.Perm ((⟨m.counter, row.key⟩, row) :: m.map.entries) :=
      OrderedMap.perm_insertEntry (m.counter_fresh row.key)
    rw [insertAll_cons]
    refine (ih (m.insertRow row)).trans ?_
    refine (hperm.append_left (numbered (m.counter + 1) rows)).trans ?_
    exact List.perm_middle

end MemTable

/-! ### Round trip -/

theorem WriteAheadLog.issued_foldl_log (wal : WriteAheadLog) (rows : List SSTableRow) :
    (rows.foldl WriteAheadLog.log wal).issued = wal.issued ++ serializeAll rows := by
  induction rows generalizing wal with
  | nil => simp
  | cons row rows ih => rw [List.foldl_cons, ih, issued_log, serializeAll_cons, List.append_assoc]

/-- What `dump` wrote of one row or more, `load` appends to any table; a log of the rows has the same bytes, and
its replay into any memtable inserts the rows under the next ids, next to the entries that were there. -/
theorem rows_round_trip (P : Platform) (table : SSTable) (m : MemTable) (row : SSTableRow)
    (rows : List SSTableRow) :
    SSTable.load P table (IStream.ofBytes (SSTable.mk (row :: rows)).dump) = .ok ⟨table.rows ++ row :: rows⟩ ∧
    ((row :: rows).foldl WriteAheadLog.log WriteAheadLog.create).issued = (SSTable.mk (row :: rows)).dump ∧
    ∃ m', MemTable.restoreFromLog P m (IStream.ofBytes (SSTable.mk (row :: rows)).dump) = .ok m' ∧
      m'.counter = m.counter + (row :: rows).length ∧
      m'.map.entries.Perm (MemTable.numbered m.counter (row :: rows) ++ m.map.entries) := by
  rw [SSTable.dump_eq]
  have hfuel : rows.length + 2 ≤ (IStream.ofBytes (serializeAll (row :: rows))).rest.length + 2 := by
    have hlen := MemTable.length_le_serializeAll (row :: rows)
    rw [List.length_cons] at hlen
    show rows.length + 2 ≤ (serializeAll (row :: rows)).length + 2
    omega
  refine ⟨?_, ?_, m.insertAll (row :: rows), ?_, ?_, ?_⟩
  · rw [SSTable.load, SSTable.loadLoop_eq, MemTable.readRows_rows P row rows hfuel]
    rfl
  · rw [WriteAheadLog.issued_foldl_log]
    rfl
  · exact MemTable.restoreFromLog_rows P m (List.cons_ne_nil row rows)
  · exact MemTable.counter_insertAll m (row :: rows)
  · exact MemTable.entries_insertAll m (row :: rows)

end OmxDb
