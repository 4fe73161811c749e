import OmxDb.Replay

/-!
# The memtable as a map of latest rows

Two ways to reach a memtable. `Reachable` lists the rows that puts, removes and replays of arbitrary streams
added; `run` takes a memtable with a log through calls that also clear it and replay whole logs. Either way a
lookup finds the last row added under the key (`Reachable.findRow_eq`, `getInto_run`): insertion ids are fresh, so
the first entry of a key is its newest, and the second comparison, by key alone, stops there.
-/

namespace OmxDb

theorem lastRow_append (left right : List SSTableRow) (key : Key) :
    lastRow (left ++ right) key = (lastRow right key).or (lastRow left key) := by
  unfold lastRow
  rw [List.reverse_append, List.find?_append]

theorem lastRow_eq_none {rows : List SSTableRow} {key : Key} :
    lastRow rows key = none ↔ ∀ row ∈ rows, row.key ≠ key := by
  simp [lastRow, List.find?_eq_none]

namespace MemTable

/-! ### What a replay adds -/

/-- The rows `restoreFromLog` has inserted when it returns or throws, and which of the two it does. -/
def replayed (P : Platform) (s : IStream) : List SSTableRow × Except Fault Unit :=
  if s.bad then ([], .error (.runtimeError "bad input stream")) else readRows P (s.rest.length + 2) s

theorem restoreFromLog_eq (P : Platform) (m : MemTable) (s : IStream) :
    restoreFromLog P m s = (replayed P s).2.map fun _ => m.insertAll (replayed P s).1 := by
  unfold restoreFromLog replayed
  split
  · rfl
  · exact restoreLoop_eq P _ m s

/-! ### Reachable memtables -/

/-- A memtable and the rows added to it, in order; a replay that throws leaves the rows it got to. -/
inductive Reachable (P : Platform) : List SSTableRow → MemTable → Prop where
  | empty : Reachable P [] {}
  | setWriteAheadLog {rows m} : Reachable P rows m → Reachable P rows m.setWriteAheadLog
  | put {rows m} (key : Key) (value : ByteString) (checksum : UInt128) : Reachable P rows m →
      Reachable P (rows ++ [⟨key, value, .Put, checksum⟩]) (m.put key value checksum)
  | remove {rows m} (key : Key) : Reachable P rows m →
      Reachable P (rows ++ [⟨key, ByteString.empty, .Remove, (0, 0)⟩]) (m.remove key)
  | restoreFromLog {rows m} (s : IStream) : Reachable P rows m →
      Reachable P (rows ++ (replayed P s).1) (m.insertAll (replayed P s).1)

namespace Reachable

variable {P : Platform} {rows : List SSTableRow} {m : MemTable}

theorem mem_rows_put {m : MemTable} {key : Key} {value : ByteString} {checksum : UInt128}
    {entryType : EntryType} {row : SSTableRow} :
    row ∈ (m.putEntry key value checksum entryType).rows ↔
      row = ⟨key, value, entryType, checksum⟩ ∨ row ∈ m.rows :=
  mem_rows_insertRow

theorem findRow_eq (h : Reachable P rows m) (key : Key) : m.findRow key = lastRow rows key := by
  induction h with
  | empty => rfl
  | setWriteAheadLog _ ih => exact ih
  | put key' value checksum _ ih => rw [MemTable.put, findRow_putEntry, lastRow_append_singleton, ih]
  | remove key' _ ih => rw [MemTable.remove, findRow_putEntry, lastRow_append_singleton, ih]
  | restoreFromLog s _ ih => rw [findRow_insertAll, lastRow_append, ih]

theorem mem_rows_iff (h : Reachable P rows m) (row : SSTableRow) : row ∈ m.rows ↔ row ∈ rows := by
  induction h with
  | empty => rfl
  | setWriteAheadLog _ ih => exact ih
  | put key value checksum _ ih =>
    rw [MemTable.put, mem_rows_put, ih, List.mem_append, List.mem_singleton, or_comm]
  | remove key _ ih => rw [MemTable.remove, mem_rows_put, ih, List.mem_append, List.mem_singleton, or_comm]
  | restoreFromLog s _ ih => rw [mem_rows_insertAll, ih, List.mem_append, or_comm]

end Reachable

/-! ### Insertion ids -/

/-- No two entries share an insertion id. -/
def IdsDistinct (m : MemTable) : Prop := (m.map.entries.map fun entry => entry.1.id).Nodup

theorem IdsDistinct.insertRow {m : MemTable} (h : m.IdsDistinct) (row : SSTableRow) :
    (m.insertRow row).IdsDistinct := by
  have hperm : (m.insertRow row).map.entries.Perm ((⟨m.counter, row.key⟩, row) :: m.map.entries) :=
    OrderedMap.perm_insertEntry (m.counter_fresh row.key)
  unfold IdsDistinct at h ⊢
  rw [(hperm.map fun entry => entry.1.id).nodup_iff, List.map_cons, List.nodup_cons]
  refine ⟨?_, h⟩
  intro hmem
  obtain ⟨entry, hentry, hid⟩ := List.mem_map.mp hmem
  exact absurd hid (Nat.ne_of_lt (m.wf entry hentry).1)

theorem IdsDistinct.insertAll {m : MemTable} (h : m.IdsDistinct) (rows : List SSTableRow) :
    (m.insertAll rows).IdsDistinct := by
  induction rows generalizing m with
  | nil => exact h
  | cons row rows ih => exact ih (h.insertRow row)

/-! ### Calls on a memtable with a log -/

/-- A log of whole rows, at least one. -/
structure WholeLog where
  rows : List SSTableRow
  nonempty : rows ≠ []

def WholeLog.bytes (log : WholeLog) : List UInt8 := serializeAll log.rows

inductive Call where
  | put (key : Key) (value : ByteString) (checksum : UInt128)
  | putUnchecked (key : Key) (value : ByteString)
  | remove (key : Key)
  | restoreFromLog (log : WholeLog)
  | clear

/-- `put` without a checksum. -/
def putUnchecked (m : MemTable) (key : Key) (value : ByteString) : MemTable := m.put key value (0, 0)

/-- `get` with its output arguments: whether it returns true, and what they hold then. -/
def getInto (m : MemTable) (key : Key) (value : ByteString) (checksum : UInt128) :
    Bool × ByteString × UInt128 :=
  match m.findRow key with
  | none => (false, value, checksum)
  | some row =>
    if row.entryType = .Remove then (false, value, checksum) else (true, row.value, row.checksum)

def call (P : Platform) (m : MemTable) : Call → Except Fault MemTable
  | .put key value checksum => .ok (m.put key value checksum)
  | .putUnchecked key value => .ok (m.putUnchecked key value)
  | .remove key => .ok (m.remove key)
  | .restoreFromLog log => m.restoreFromLog P (IStream.ofBytes log.bytes)
  | .clear => .ok m.clear

def run (P : Platform) (m : MemTable) (calls : List Call) : Except Fault MemTable := calls.foldlM (call P) m

/-- The rows added since the last clear, given those added before the call. -/
def rowsAfter (rows : List SSTableRow) : Call → List SSTableRow
  | .put key value checksum => rows ++ [⟨key, value, .Put, checksum⟩]
  | .putUnchecked key value => rows ++ [⟨key, value, .Put, (0, 0)⟩]
  | .remove key => rows ++ [⟨key, ByteString.empty, .Remove, (0, 0)⟩]
  | .restoreFromLog log => rows ++ log.rows
  | .clear => []

def addedRows (calls : List Call) : List SSTableRow := calls.foldl rowsAfter []

/-- Lookups find the last of the rows, under ids of their own. -/
structure Holds (m : MemTable) (rows : List SSTableRow) : Prop where
  latest : ∀ key, m.findRow key = lastRow rows key
  ids : m.IdsDistinct

theorem Holds.putEntry {m : MemTable} {rows : List SSTableRow} (h : Holds m rows) (key : Key) (value : ByteString)
    (checksum : UInt128) (entryType : EntryType) :
    Holds (m.putEntry key value checksum entryType) (rows ++ [⟨key, value, entryType, checksum⟩]) where
  latest key' := by rw [findRow_putEntry, lastRow_append_singleton, h.latest]
  ids := by
    have hlog : (m.log ⟨key, value, entryType, checksum⟩).IdsDistinct := h.ids
    exact hlog.insertRow ⟨key, value, entryType, checksum⟩

theorem Holds.call {m : MemTable} {rows : List SSTableRow} (h : Holds m rows) (P : Platform) (c : Call) :
    ∃ m', m.call P c = .ok m' ∧ Holds m' (rowsAfter rows c) := by
  cases c with
  | put key value checksum => exact ⟨_, rfl, h.putEntry key value checksum .Put⟩
  | putUnchecked key value => exact ⟨_, rfl, h.putEntry key value (0, 0) .Put⟩
  | remove key => exact ⟨_, rfl, h.putEntry key ByteString.empty (0, 0) .Remove⟩
  | restoreFromLog log =>
    refine ⟨_, restoreFromLog_rows P m log.nonempty, ?_, h.ids.insertAll log.rows⟩
    intro key
    rw [findRow_insertAll, rowsAfter, lastRow_append, h.latest]
  | clear => exact ⟨_, rfl, fun _ => rfl, List.nodup_nil⟩

theorem Holds.run {m : MemTable} {rows : List SSTableRow} (h : Holds m rows) (P : Platform)
    (calls : List Call) :
    ∃ m', m.run P calls = .ok m' ∧ Holds m' (calls.foldl rowsAfter rows) := by
  induction calls generalizing m rows with
  | nil => exact ⟨m, rfl, h⟩
  | cons c calls ih =>
    obtain ⟨m', hcall, hm'⟩ := h.call P c
    obtain ⟨m'', hrun, hm''⟩ := ih hm'
    refine ⟨m'', ?_, hm''⟩
    unfold MemTable.run at hrun ⊢
    rw [List.foldlM_cons, hcall]
    exact hrun

/-- From an empty memtable with a log, all calls return; then a lookup answers with the last row added under the
key since the last clear, unless it is a removal, and leaves the output arguments alone where there is none; and the
insertion ids are distinct and behind the counter. -/
theorem getInto_run (P : Platform) (calls : List Call) :
    ∃ m, ({} : MemTable).setWriteAheadLog.run P calls = .ok m ∧
      (∀ key value checksum, m.getInto key value checksum =
        match lastRow (addedRows calls) key with
        | some row =>
          if row.entryType = .Remove then (false, value, checksum) else (true, row.value, row.checksum)
        | none => (false, value, checksum)) ∧
      (m.map.entries.map fun entry => entry.1.id).Nodup ∧
      ∀ entry ∈ m.map.entries, entry.1.id < m.counter := by
  have hempty : Holds ({} : MemTable).setWriteAheadLog [] := ⟨fun _ => rfl, List.nodup_nil⟩
  obtain ⟨m, hrun, hm⟩ := hempty.run P calls
  refine ⟨m, hrun, ?_, hm.ids, fun entry hentry => (m.wf entry hentry).1⟩
  intro key value checksum
  unfold getInto addedRows
  rw [hm.latest]
  cases lastRow (calls.foldl rowsAfter []) key <;> rfl

end MemTable

end OmxDb
