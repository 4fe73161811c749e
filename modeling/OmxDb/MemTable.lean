import OmxDb.Row
import OmxDb.Lib.OrderedMap

/-!
# The memtable and its write-ahead log

The memtable keeps every version of a key in one ordered map: insertion keys compare by key and, within a
key, newest first (`InsertKey.comparator`), so the first entry of a key is its newest row. Lookup uses the
key alone; flushing walks the map and drops every entry whose key id equals the previous one, starting
from `npos`, which is itself the id of a key.

Everything the rest of the development knows about a memtable is `findRow`, the newest row of a key, and
how each operation changes it. The rows of a flushed table have the same lookup (`find?_sortedStringsTable`)
as soon as one key of the map is not `npos`.
-/

namespace OmxDb

/-! ### Insertion keys -/

structure InsertKey (κ : Type*) where
  id : Nat
  key : κ
deriving DecidableEq

structure SearchKey (κ : Type*) where
  key : κ

namespace InsertKey

variable {κ : Type*} [LinearOrder κ]

/-- `InsertKey::Comparator`: by key, then the larger id first. -/
def comparator (lhs rhs : InsertKey κ) : Bool :=
  if lhs.key < rhs.key then true
  else if rhs.key < lhs.key then false
  else decide (lhs.id > rhs.id)

theorem comparator_iff {lhs rhs : InsertKey κ} :
    comparator lhs rhs = true ↔ lhs.key < rhs.key ∨ lhs.key = rhs.key ∧ rhs.id < lhs.id := by
  rw [comparator]
  split_ifs with h h'
  · simp [h]
  · simp [h, ne_of_gt h']
  · have heq : lhs.key = rhs.key := le_antisymm (not_lt.mp h') (not_lt.mp h)
    simp [heq]

instance : OrderedMap.Comparator (comparator (κ := κ)) where
  trans {a b c} hab hbc := by
    rw [comparator_iff] at *
    rcases hab with hab | ⟨hab, hab'⟩ <;> rcases hbc with hbc | ⟨hbc, hbc'⟩
    · exact Or.inl (lt_trans hab hbc)
    · exact Or.inl (hbc ▸ hab)
    · exact Or.inl (hab ▸ hbc)
    · exact Or.inr ⟨hab.trans hbc, lt_trans hbc' hab'⟩
  irrefl a := by
    rw [← Bool.not_eq_true, comparator_iff]
    simp
  total {a b} hne := by
    simp only [comparator_iff]
    rcases lt_trichotomy a.key b.key with h | h | h
    · exact Or.inl (Or.inl h)
    · have hid : a.id ≠ b.id := fun hid => hne (by cases a; cases b; simp_all)
      rcases Nat.lt_or_gt_of_ne hid with hid | hid
      · exact Or.inr (Or.inr ⟨h.symm, hid⟩)
      · exact Or.inl (Or.inr ⟨h, hid⟩)
    · exact Or.inr (Or.inl h)

/-- Neither `operator<` between the insertion key and the search key holds. -/
def equivalent (sk : SearchKey κ) (ik : InsertKey κ) : Bool :=
  !decide (ik.key < sk.key) && !decide (sk.key < ik.key)

@[simp] theorem equivalent_iff {sk : SearchKey κ} {ik : InsertKey κ} :
    equivalent sk ik = true ↔ ik.key = sk.key := by
  simp only [equivalent, Bool.and_eq_true, Bool.not_eq_true', decide_eq_false_iff_not, not_lt]
  exact ⟨fun h => le_antisymm h.2 h.1, fun h => ⟨h.ge, h.le⟩⟩

end InsertKey

/-! ### The write-ahead log -/

/-- The log stream: what reached the file and what still sits in the stream buffer. How far the buffer is
spilled between two flushes is up to the library, and nothing in a session reads the file back. -/
structure WriteAheadLog where
  file : List UInt8
  buffer : List UInt8
deriving DecidableEq

namespace WriteAheadLog

/-- The constructor opens the file for output, which truncates it. -/
def create : WriteAheadLog := ⟨[], []⟩

def log (wal : WriteAheadLog) (row : SSTableRow) : WriteAheadLog :=
  { wal with buffer := wal.buffer ++ serialize row }

/-- `m_stream.flush()`: the buffered bytes reach the file, which keeps what it has. -/
def flushAndClear (wal : WriteAheadLog) : WriteAheadLog :=
  ⟨wal.file ++ wal.buffer, []⟩

/-- All bytes handed to the log. -/
def issued (wal : WriteAheadLog) : List UInt8 := wal.file ++ wal.buffer

@[simp] theorem issued_create : create.issued = [] := rfl

@[simp] theorem issued_log (wal : WriteAheadLog) (row : SSTableRow) :
    (wal.log row).issued = wal.issued ++ serialize row := by
  simp [issued, log]

@[simp] theorem issued_flushAndClear (wal : WriteAheadLog) :
    wal.flushAndClear.issued = wal.issued := by
  simp [issued, flushAndClear]

end WriteAheadLog

/-! ### Tables of rows -/

structure SSTable where
  rows : List SSTableRow
deriving DecidableEq

def SSTable.append (table : SSTable) (row : SSTableRow) : SSTable := ⟨table.rows ++ [row]⟩

theorem find?_of_ascending {rows : List SSTableRow} (h : rows.Pairwise fun a b => a.key < b.key) {row : SSTableRow}
    (hrow : row ∈ rows) : rows.find? (fun other => other.key = row.key) = some row := by
  obtain ⟨before, after, rfl⟩ := List.append_of_mem hrow
  rw [List.find?_append, List.find?_cons_of_pos (by simp)]
  have hnone : before.find? (fun other => other.key = row.key) = none := by
    refine List.find?_eq_none.mpr fun other hother => ?_
    simpa using ne_of_lt ((List.pairwise_append.mp h).2.2 other hother row (by simp))
  rw [hnone]
  rfl

/-! ### The memtable -/

theorem MemTable.wf_empty :
    ∀ entry ∈ (OrderedMap.empty : OrderedMap (InsertKey.comparator (κ := Key)) SSTableRow).entries,
      entry.1.id < 0 ∧ entry.1.key = entry.2.key := by
  simp

/-- Every entry was inserted under its row's key with an id the counter has passed. -/
structure MemTable where
  map : OrderedMap (InsertKey.comparator (κ := Key)) SSTableRow := OrderedMap.empty
  counter : Nat := 0
  memorySize : Nat := 0
  wal : Option WriteAheadLog := none
  wf : ∀ entry ∈ map.entries, entry.1.id < counter ∧ entry.1.key = entry.2.key := by exact MemTable.wf_empty

/-- `std::string::npos`. -/
def npos : UInt64 := 18446744073709551615

namespace MemTable

/-- `m_map.insert` under a fresh insertion key, as both `put` and the log replay do it. -/
def insertRow (m : MemTable) (row : SSTableRow) : MemTable :=
  { m with
    map := m.map.insert ⟨m.counter, row.key⟩ row
    counter := m.counter + 1
    wf := fun entry hmem => by
      rcases OrderedMap.mem_of_mem_insertEntry hmem with rfl | hmem
      · exact ⟨Nat.lt_succ_self _, rfl⟩
      · exact ⟨Nat.lt_succ_of_lt (m.wf entry hmem).1, (m.wf entry hmem).2⟩ }

def log (m : MemTable) (row : SSTableRow) : MemTable :=
  { m with wal := m.wal.map fun wal => wal.log row }

/-- The private `put` all writes go through. -/
def putEntry (m : MemTable) (key : Key) (value : ByteString) (checksum : UInt128)
    (entryType : EntryType) : MemTable :=
  let row : SSTableRow := ⟨key, value, entryType, checksum⟩
  let m := { m with memorySize := m.memorySize + row.getRowSize }
  (m.log row).insertRow row

def put (m : MemTable) (key : Key) (value : ByteString) (checksum : UInt128) : MemTable :=
  m.putEntry key value checksum .Put

def remove (m : MemTable) (key : Key) : MemTable :=
  m.putEntry key ByteString.empty (0, 0) .Remove

/-- `m_map.find(SearchKey(key))`: the first equivalent entry in order. -/
def findRow (m : MemTable) (key : Key) : Option SSTableRow :=
  (m.map.entries.find? fun entry => InsertKey.equivalent ⟨key⟩ entry.1).map Prod.snd

/-- The value and checksum on success; `none` leaves the output arguments alone. -/
def get (m : MemTable) (key : Key) : Option (ByteString × UInt128) :=
  match m.findRow key with
  | none => none
  | some row => if row.entryType = .Remove then none else some (row.value, row.checksum)

def dumpLoop (prevKeyId : UInt64) (os : List UInt8) :
    List (InsertKey Key × SSTableRow) → List UInt8
  | [] => os
  | (insertKey, row) :: entries =>
    if prevKeyId = insertKey.key.id then dumpLoop prevKeyId os entries
    else dumpLoop insertKey.key.id (os ++ serialize row) entries

/-- The bytes `dump` writes. -/
def dump (m : MemTable) : List UInt8 := dumpLoop npos [] m.map.entries

def setWriteAheadLog (m : MemTable) : MemTable := { m with wal := some WriteAheadLog.create }

/-- The replay loop; the fuel counts the tests of the loop condition. -/
def restoreLoop (P : Platform) : Nat → MemTable → IStream → Except Fault MemTable
  | 0, _, _ => .error .diverges
  | fuel + 1, m, s =>
    if s.eof then .ok m
    else match deserialize P s with
      | .error fault => .error fault
      | .ok (row, s') => restoreLoop P fuel (m.insertRow row) s'.peek

def restoreFromLog (P : Platform) (m : MemTable) (s : IStream) : Except Fault MemTable :=
  if s.bad then .error (.runtimeError "bad input stream")
  else restoreLoop P (s.rest.length + 2) m s

def getApproximateSize (m : MemTable) : Nat := m.memorySize

def createLoop (prevKeyId : UInt64) (table : SSTable) :
    List (InsertKey Key × SSTableRow) → SSTable
  | [] => table
  | (insertKey, row) :: entries =>
    if prevKeyId = insertKey.key.id then createLoop prevKeyId table entries
    else createLoop insertKey.key.id (table.append row) entries

def createSortedStringsTable (m : MemTable) : SSTable := createLoop npos ⟨[]⟩ m.map.entries

/-- The log keeps its bytes. -/
def clear (m : MemTable) : MemTable :=
  { map := OrderedMap.empty, counter := 0, memorySize := 0
    wal := m.wal.map WriteAheadLog.flushAndClear }

/-! ### Lookups after each operation -/

theorem counter_fresh (m : MemTable) (key : Key) :
    ∀ entry ∈ m.map.entries, entry.1 ≠ ⟨m.counter, key⟩ := by
  intro entry hmem heq
  have hlt := (m.wf entry hmem).1
  rw [heq] at hlt
  exact lt_irrefl _ hlt

@[simp] theorem findRow_empty (key : Key) : ({} : MemTable).findRow key = none := rfl

@[simp] theorem findRow_insertRow (m : MemTable) (row : SSTableRow) (key : Key) :
    (m.insertRow row).findRow key = if row.key = key then some row else m.findRow key := by
  simp only [findRow, insertRow, OrderedMap.entries_insert]
  split_ifs with hkey
  · rw [OrderedMap.find?_insertEntry_self (InsertKey.equivalent ⟨key⟩)]
    · rfl
    · simpa using hkey
    · intro entry hmem heq
      rw [InsertKey.equivalent_iff] at heq
      refine InsertKey.comparator_iff.mpr (Or.inr ⟨?_, (m.wf entry hmem).1⟩)
      exact hkey.trans heq.symm
  · rw [OrderedMap.find?_insertEntry_of_not (InsertKey.equivalent ⟨key⟩)]
    rw [← Bool.not_eq_true, InsertKey.equivalent_iff]
    exact hkey

@[simp] theorem findRow_log (m : MemTable) (row : SSTableRow) (key : Key) :
    (m.log row).findRow key = m.findRow key := rfl

theorem findRow_putEntry (m : MemTable) (key : Key) (value : ByteString) (checksum : UInt128)
    (entryType : EntryType) (key' : Key) :
    (m.putEntry key value checksum entryType).findRow key'
      = if key = key' then some ⟨key, value, entryType, checksum⟩ else m.findRow key' := by
  rw [putEntry]
  exact findRow_insertRow _ _ _

@[simp] theorem findRow_setWriteAheadLog (m : MemTable) (key : Key) :
    m.setWriteAheadLog.findRow key = m.findRow key := rfl

@[simp] theorem findRow_clear (m : MemTable) (key : Key) : m.clear.findRow key = none := rfl

theorem key_of_findRow {m : MemTable} {key : Key} {row : SSTableRow}
    (h : m.findRow key = some row) : row.key = key := by
  rw [findRow, Option.map_eq_some_iff] at h
  obtain ⟨entry, hfind, rfl⟩ := h
  have hpass := List.find?_some hfind
  rw [InsertKey.equivalent_iff] at hpass
  rw [← (m.wf entry (List.mem_of_find?_eq_some hfind)).2, hpass]

/-! ### The rows of the map -/

def rows (m : MemTable) : List SSTableRow := m.map.entries.map Prod.snd

theorem mem_rows_insertRow {m : MemTable} {row row' : SSTableRow} :
    row' ∈ (m.insertRow row).rows ↔ row' = row ∨ row' ∈ m.rows := by
  unfold rows
  simp only [List.mem_map]
  constructor
  · rintro ⟨entry, hmem, rfl⟩
    rcases OrderedMap.mem_of_mem_insertEntry hmem with rfl | hmem
    · exact Or.inl rfl
    · exact Or.inr ⟨entry, hmem, rfl⟩
  · rintro (rfl | ⟨entry, hmem, rfl⟩)
    · exact ⟨_, OrderedMap.mem_insertEntry_self (m.counter_fresh row'.key), rfl⟩
    · exact ⟨entry, OrderedMap.mem_insertEntry_of_mem hmem, rfl⟩

@[simp] theorem rows_empty : ({} : MemTable).rows = [] := rfl

@[simp] theorem rows_clear (m : MemTable) : m.clear.rows = [] := rfl

@[simp] theorem rows_setWriteAheadLog (m : MemTable) : m.setWriteAheadLog.rows = m.rows := rfl

/-! ### Writing a row -/

/-- The write that logs and inserts the row. -/
def writeRow (m : MemTable) (row : SSTableRow) : MemTable :=
  m.putEntry row.key row.value row.checksum row.entryType

theorem findRow_writeRow (m : MemTable) (row : SSTableRow) (key : Key) :
    (m.writeRow row).findRow key = if row.key = key then some row else m.findRow key :=
  findRow_putEntry m row.key row.value row.checksum row.entryType key

theorem mem_rows_writeRow {m : MemTable} {row row' : SSTableRow} :
    row' ∈ (m.writeRow row).rows ↔ row' = row ∨ row' ∈ m.rows :=
  mem_rows_insertRow (m := m)

theorem wal_writeRow (m : MemTable) (row : SSTableRow) :
    (m.writeRow row).wal = m.wal.map fun wal => wal.log row := rfl

/-! ### Flushing -/

/-- The rows the skip loop keeps. -/
def newestRows (prevKeyId : UInt64) : List (InsertKey Key × SSTableRow) → List SSTableRow
  | [] => []
  | (insertKey, row) :: entries =>
    if prevKeyId = insertKey.key.id then newestRows prevKeyId entries
    else row :: newestRows insertKey.key.id entries

theorem createLoop_eq (prevKeyId : UInt64) (table : SSTable)
    (entries : List (InsertKey Key × SSTableRow)) :
    createLoop prevKeyId table entries = ⟨table.rows ++ newestRows prevKeyId entries⟩ := by
  induction entries generalizing prevKeyId table with
  | nil => simp [createLoop, newestRows]
  | cons entry entries ih =>
    obtain ⟨insertKey, row⟩ := entry
    rw [createLoop, newestRows]
    split_ifs
    · exact ih _ _
    · rw [ih, SSTable.append, List.append_assoc, List.singleton_append]

theorem dumpLoop_eq (prevKeyId : UInt64) (os : List UInt8)
    (entries : List (InsertKey Key × SSTableRow)) :
    dumpLoop prevKeyId os entries = os ++ serializeAll (newestRows prevKeyId entries) := by
  induction entries generalizing prevKeyId os with
  | nil => simp [dumpLoop, newestRows]
  | cons entry entries ih =>
    obtain ⟨insertKey, row⟩ := entry
    rw [dumpLoop, newestRows]
    split_ifs
    · exact ih _ _
    · rw [ih, serializeAll_cons, List.append_assoc]

theorem sortedStringsTable_rows (m : MemTable) :
    m.createSortedStringsTable.rows = newestRows npos m.map.entries := by
  rw [createSortedStringsTable, createLoop_eq, List.nil_append]

theorem dump_eq (m : MemTable) : m.dump = serializeAll m.createSortedStringsTable.rows := by
  rw [dump, dumpLoop_eq, sortedStringsTable_rows, List.nil_append]

theorem entries_sorted (m : MemTable) :
    m.map.entries.Pairwise fun a b => a.1.key ≤ b.1.key :=
  m.map.sorted.imp fun h => by
    rcases InsertKey.comparator_iff.mp h with h | ⟨h, _⟩
    · exact le_of_lt h
    · exact h.le

theorem mem_of_mem_newestRows {prevKeyId : UInt64} {entries : List (InsertKey Key × SSTableRow)}
    {row : SSTableRow} (h : row ∈ newestRows prevKeyId entries) :
    ∃ insertKey, (insertKey, row) ∈ entries := by
  induction entries generalizing prevKeyId with
  | nil => simp [newestRows] at h
  | cons entry entries ih =>
    obtain ⟨insertKey, head⟩ := entry
    rw [newestRows] at h
    split_ifs at h
    · obtain ⟨insertKey', hmem⟩ := ih h
      exact ⟨insertKey', List.mem_cons_of_mem _ hmem⟩
    · rcases List.mem_cons.mp h with rfl | h
      · exact ⟨insertKey, by simp⟩
      · obtain ⟨insertKey', hmem⟩ := ih h
        exact ⟨insertKey', List.mem_cons_of_mem _ hmem⟩

section skipLoop

variable {entries : List (InsertKey Key × SSTableRow)}

theorem lt_key_of_mem_newestRows {prev : Key} (hkeys : ∀ entry ∈ entries, entry.1.key = entry.2.key)
    (hsorted : entries.Pairwise fun a b => a.1.key ≤ b.1.key)
    (hle : ∀ entry ∈ entries, prev ≤ entry.1.key) {row : SSTableRow}
    (h : row ∈ newestRows prev.id entries) : prev < row.key := by
  induction entries generalizing prev with
  | nil => simp [newestRows] at h
  | cons entry entries ih =>
    obtain ⟨insertKey, head⟩ := entry
    obtain ⟨hhead, htail⟩ := List.pairwise_cons.mp hsorted
    have hkeys' : ∀ entry ∈ entries, entry.1.key = entry.2.key :=
      fun entry hmem => hkeys entry (List.mem_cons_of_mem _ hmem)
    rw [newestRows] at h
    split_ifs at h with hskip
    · exact ih hkeys' htail (fun entry hmem => hle entry (List.mem_cons_of_mem _ hmem)) h
    · have hlt : prev < insertKey.key := by
        refine lt_of_le_of_ne (hle (insertKey, head) (by simp)) fun heq => hskip ?_
        rw [heq]
      rcases List.mem_cons.mp h with rfl | h
      · rw [← hkeys (insertKey, row) (by simp)]
        exact hlt
      · exact lt_trans hlt (ih hkeys' htail hhead h)

theorem newestRows_sorted (prevKeyId : UInt64)
    (hkeys : ∀ entry ∈ entries, entry.1.key = entry.2.key)
    (hsorted : entries.Pairwise fun a b => a.1.key ≤ b.1.key) :
    (newestRows prevKeyId entries).Pairwise fun a b => a.key < b.key := by
  induction entries generalizing prevKeyId with
  | nil => simp [newestRows]
  | cons entry entries ih =>
    obtain ⟨insertKey, head⟩ := entry
    obtain ⟨hhead, htail⟩ := List.pairwise_cons.mp hsorted
    have hkeys' : ∀ entry ∈ entries, entry.1.key = entry.2.key :=
      fun entry hmem => hkeys entry (List.mem_cons_of_mem _ hmem)
    rw [newestRows]
    split_ifs
    · exact ih prevKeyId hkeys' htail
    · refine List.pairwise_cons.mpr ⟨fun row hmem => ?_, ih _ hkeys' htail⟩
      rw [← hkeys (insertKey, head) (by simp)]
      exact lt_key_of_mem_newestRows hkeys' htail hhead hmem

theorem find?_newestRows {prevKeyId : UInt64} {key : Key}
    (hkeys : ∀ entry ∈ entries, entry.1.key = entry.2.key)
    (hne : key.id ≠ prevKeyId) :
    (newestRows prevKeyId entries).find? (fun row => row.key = key)
      = (entries.find? fun entry => InsertKey.equivalent ⟨key⟩ entry.1).map Prod.snd := by
  induction entries generalizing prevKeyId with
  | nil => rfl
  | cons entry entries ih =>
    obtain ⟨insertKey, head⟩ := entry
    have hkey : insertKey.key = head.key := hkeys (insertKey, head) (by simp)
    have hkeys' : ∀ entry ∈ entries, entry.1.key = entry.2.key :=
      fun entry hmem => hkeys entry (List.mem_cons_of_mem _ hmem)
    rw [newestRows]
    by_cases hfound : insertKey.key = key
    · have hkeep : prevKeyId ≠ insertKey.key.id := by
        rw [hfound]
        exact hne.symm
      rw [if_neg hkeep, List.find?_cons_of_pos (by simpa [← hkey] using hfound),
        List.find?_cons_of_pos (by simpa using hfound)]
      rfl
    · have hid : key.id ≠ insertKey.key.id := fun h => hfound (by cases key; simp_all)
      rw [List.find?_cons_of_neg (by simpa using hfound)]
      split_ifs
      · exact ih hkeys' hne
      · rw [List.find?_cons_of_neg (by simpa [← hkey] using hfound)]
        exact ih hkeys' hid

end skipLoop

/-- Some key of the map is not `npos`. -/
def HasOrdinaryKey (m : MemTable) : Prop := ∃ entry ∈ m.map.entries, entry.1.key.id ≠ npos

/-- The flushed table has one row of each key of the map, the newest, as soon as the map holds a key other
than `npos`: the first key of the map is then not the one the skip loop starts from. -/
theorem find?_sortedStringsTable {m : MemTable} (h : m.HasOrdinaryKey) (key : Key) :
    m.createSortedStringsTable.rows.find? (fun row => row.key = key) = m.findRow key := by
  rw [sortedStringsTable_rows, findRow]
  have hkeys : ∀ entry ∈ m.map.entries, entry.1.key = entry.2.key :=
    fun entry hmem => (m.wf entry hmem).2
  have hsorted := m.entries_sorted
  obtain ⟨ordinary, hmem, hid⟩ := h
  revert hkeys hsorted hmem
  cases m.map.entries with
  | nil => simp
  | cons first entries =>
    obtain ⟨insertKey, head⟩ := first
    intro hkeys hsorted hmem
    obtain ⟨hhead, htail⟩ := List.pairwise_cons.mp hsorted
    have hfirst : npos ≠ insertKey.key.id := by
      intro heq
      rcases List.mem_cons.mp hmem with rfl | hmem
      · exact hid heq.symm
      · have hle := Key.le_iff.mp (hhead ordinary hmem)
        rw [← heq] at hle
        refine hid (UInt64.toNat_inj.mp (Nat.le_antisymm ?_ hle))
        have hlt := ordinary.1.key.id.toNat_lt
        rw [show npos.toNat = 2 ^ 64 - 1 from rfl]
        omega
    have hkey : insertKey.key = head.key := hkeys (insertKey, head) (by simp)
    rw [newestRows, if_neg hfirst]
    by_cases hfound : insertKey.key = key
    · rw [List.find?_cons_of_pos (by simpa [← hkey] using hfound),
        List.find?_cons_of_pos (by simpa using hfound)]
      rfl
    · have hne : key.id ≠ insertKey.key.id := fun h => hfound (by cases key; simp_all)
      rw [List.find?_cons_of_neg (by simpa [← hkey] using hfound),
        List.find?_cons_of_neg (by simpa using hfound)]
      exact find?_newestRows (fun entry hmem => hkeys entry (List.mem_cons_of_mem _ hmem)) hne

theorem find?_sortedStringsTable_of_ne {m : MemTable} {key : Key} (h : key.id ≠ npos) :
    m.createSortedStringsTable.rows.find? (fun row => row.key = key) = m.findRow key := by
  rw [sortedStringsTable_rows, findRow]
  exact find?_newestRows (fun entry hmem => (m.wf entry hmem).2) h

theorem hasOrdinaryKey_of_findRow {m : MemTable} {key : Key} {row : SSTableRow} (h : m.findRow key = some row)
    (hkey : key.id ≠ npos) : m.HasOrdinaryKey := by
  rw [findRow, Option.map_eq_some_iff] at h
  obtain ⟨entry, hfind, -⟩ := h
  have hpass := List.find?_some hfind
  rw [InsertKey.equivalent_iff] at hpass
  exact ⟨entry, List.mem_of_find?_eq_some hfind, by rw [hpass]; exact hkey⟩

theorem findRow_ne_none {m : MemTable} {entry : InsertKey Key × SSTableRow} (hmem : entry ∈ m.map.entries) :
    m.findRow entry.1.key ≠ none := by
  rw [findRow, Ne, Option.map_eq_none_iff, List.find?_eq_none]
  intro hnone
  exact hnone entry hmem (InsertKey.equivalent_iff.mpr rfl)

theorem sortedStringsTable_ne_nil {m : MemTable} (h : m.HasOrdinaryKey) :
    m.createSortedStringsTable.rows ≠ [] := by
  obtain ⟨entry, hmem, -⟩ := id h
  have hfind := find?_sortedStringsTable h entry.1.key
  intro hnil
  rw [hnil, List.find?_nil] at hfind
  exact findRow_ne_none hmem hfind.symm

theorem sortedStringsTable_sorted (m : MemTable) :
    m.createSortedStringsTable.rows.Pairwise fun a b => a.key < b.key := by
  rw [sortedStringsTable_rows]
  exact newestRows_sorted npos (fun entry hmem => (m.wf entry hmem).2) m.entries_sorted

theorem findRow_of_mem_sortedStringsTable {m : MemTable} (h : m.HasOrdinaryKey) {row : SSTableRow}
    (hrow : row ∈ m.createSortedStringsTable.rows) : m.findRow row.key = some row := by
  rw [← find?_sortedStringsTable h]
  exact find?_of_ascending m.sortedStringsTable_sorted hrow

end MemTable

end OmxDb
