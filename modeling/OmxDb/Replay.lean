import OmxDb.Engine

/-!
# Replaying the log

What `restoreFromLog` makes of a log. A log of whole rows, at least one, is replayed row by row
(`restoreFromLog_rows`). The loop tests for the end of the stream before the first read only, and the reader
never checks a read: a log cut inside a row, and the empty log, yield one more row, half filled, behind the
whole ones (`restoreFromLog_cut`). `recoversExactly_iff` draws the line: recovery is exact at a cut if and
only if the cut is behind a row.
-/

namespace OmxDb

open LittleEndian

/-! ### The rows of a log -/

/-- The last row of a key. -/
def lastRow (rows : List SSTableRow) (key : Key) : Option SSTableRow :=
  rows.reverse.find? fun row => row.key = key

@[simp] theorem lastRow_nil (key : Key) : lastRow [] key = none := rfl

@[simp] theorem lastRow_append_singleton (rows : List SSTableRow) (row : SSTableRow) (key : Key) :
    lastRow (rows ++ [row]) key = if row.key = key then some row else lastRow rows key := by
  unfold lastRow
  rw [List.reverse_append, List.reverse_singleton, List.singleton_append, List.find?_cons]
  by_cases h : row.key = key <;> simp [h]

theorem lastRow_cons (row : SSTableRow) (rows : List SSTableRow) (key : Key) :
    lastRow (row :: rows) key = (lastRow rows key).or (if row.key = key then some row else none) := by
  unfold lastRow
  rw [List.reverse_cons, List.find?_append]
  by_cases h : row.key = key <;> simp [h]

namespace MemTable

def insertAll (m : MemTable) (rows : List SSTableRow) : MemTable := rows.foldl insertRow m

@[simp] theorem insertAll_nil (m : MemTable) : m.insertAll [] = m := rfl

@[simp] theorem insertAll_cons (m : MemTable) (row : SSTableRow) (rows : List SSTableRow) :
    m.insertAll (row :: rows) = (m.insertRow row).insertAll rows := rfl

theorem findRow_insertAll (m : MemTable) (rows : List SSTableRow) (key : Key) :
    (m.insertAll rows).findRow key = (lastRow rows key).or (m.findRow key) := by
  induction rows generalizing m with
  | nil => simp
  | cons row rows ih =>
    rw [insertAll_cons, ih, findRow_insertRow, lastRow_cons, Option.or_assoc]
    by_cases h : row.key = key <;> simp [h]

theorem length_entries_insertRow (m : MemTable) (row : SSTableRow) :
    (m.insertRow row).map.entries.length = m.map.entries.length + 1 :=
  OrderedMap.length_insertEntry (m.counter_fresh row.key)

theorem length_entries_insertAll (m : MemTable) (rows : List SSTableRow) :
    (m.insertAll rows).map.entries.length = m.map.entries.length + rows.length := by
  induction rows generalizing m with
  | nil => rfl
  | cons row rows ih =>
    rw [insertAll_cons, ih, length_entries_insertRow, List.length_cons]
    omega

theorem mem_rows_insertAll {m : MemTable} {rows : List SSTableRow} {row : SSTableRow} :
    row ∈ (m.insertAll rows).rows ↔ row ∈ rows ∨ row ∈ m.rows := by
  induction rows generalizing m with
  | nil => simp
  | cons head rows ih =>
    rw [insertAll_cons, ih, mem_rows_insertRow, List.mem_cons]
    constructor
    · rintro (h | h | h)
      · exact Or.inl (Or.inr h)
      · exact Or.inl (Or.inl h)
      · exact Or.inr h
    · rintro ((h | h) | h)
      · exact Or.inr (Or.inl h)
      · exact Or.inl h
      · exact Or.inr (Or.inr h)

/-! ### The replay loop -/

/-- The rows the replay loop inserts, and how it ends. -/
def readRows (P : Platform) : Nat → IStream → List SSTableRow × Except Fault Unit
  | 0, _ => ([], .error .diverges)
  | fuel + 1, s =>
    if s.eof then ([], .ok ())
    else match deserialize P s with
      | .error fault => ([], .error fault)
      | .ok (row, s') => (row :: (readRows P fuel s'.peek).1, (readRows P fuel s'.peek).2)

theorem restoreLoop_eq (P : Platform) (fuel : Nat) (m : MemTable) (s : IStream) :
    restoreLoop P fuel m s = (readRows P fuel s).2.map fun _ => m.insertAll (readRows P fuel s).1 := by
  induction fuel generalizing m s with
  | zero => rfl
  | succ fuel ih =>
    rw [restoreLoop, readRows]
    split
    · rfl
    · cases deserialize P s with
      | error fault => rfl
      | ok read => exact ih _ _

theorem readRows_append (P : Platform) {rows : List SSTableRow} {tail : List UInt8} (h : rows = [] ∨ tail ≠ [])
    (fuel : Nat) : readRows P (rows.length + fuel) (IStream.ofBytes (serializeAll rows ++ tail))
      = (rows ++ (readRows P fuel (IStream.ofBytes tail)).1, (readRows P fuel (IStream.ofBytes tail)).2) := by
  induction rows with
  | nil => simp
  | cons row rows ih =>
    have htail : tail ≠ [] := h.resolve_left (List.cons_ne_nil row rows)
    have hne : serializeAll rows ++ tail ≠ [] := List.append_ne_nil_of_right_ne_nil _ htail
    rw [List.length_cons, show rows.length + 1 + fuel = rows.length + fuel + 1 by omega]
    rw [serializeAll_cons, List.append_assoc, readRows, deserialize_serialize]
    simp only [IStream.eof_ofBytes, Bool.false_eq_true, if_false]
    rw [IStream.peek_ofBytes_of_ne_nil hne, ih (Or.inr htail), List.cons_append]

theorem readRows_last {P : Platform} {bytes : List UInt8} {row : SSTableRow} {s : IStream}
    (hread : deserialize P (IStream.ofBytes bytes) = .ok (row, s)) (heof : s.peek.eof = true) (fuel : Nat) :
    readRows P (fuel + 2) (IStream.ofBytes bytes) = ([row], .ok ()) := by
  simp only [readRows, IStream.eof_ofBytes, Bool.false_eq_true, if_false, hread, heof, if_true]

theorem readRows_rows (P : Platform) (row : SSTableRow) (rows : List SSTableRow) {fuel : Nat}
    (hfuel : rows.length + 2 ≤ fuel) :
    readRows P fuel (IStream.ofBytes (serializeAll (row :: rows))) = (row :: rows, .ok ()) := by
  obtain ⟨before, last, hrows⟩ : ∃ before last, row :: rows = before ++ [last] :=
    ⟨_, _, (List.dropLast_append_getLast (List.cons_ne_nil row rows)).symm⟩
  have hlength := congrArg List.length hrows
  rw [List.length_cons, List.length_append, List.length_singleton] at hlength
  obtain ⟨fuel, rfl⟩ := Nat.exists_eq_add_of_le hfuel
  have hread : deserialize P (IStream.ofBytes (serializeAll [last])) = .ok (last, IStream.ofBytes []) :=
    deserialize_serialize P last []
  have hne : serializeAll [last] ≠ [] := fun h => List.cons_ne_nil last [] (serializeAll_eq_nil.mp h)
  rw [hrows, serializeAll_append, show rows.length + 2 + fuel = before.length + (fuel + 2) by omega,
    readRows_append P (Or.inr hne), readRows_last hread IStream.eof_peek_ofBytes_nil]

theorem length_le_serializeAll (rows : List SSTableRow) :
    rows.length ≤ (serializeAll rows).length := by
  induction rows with
  | nil => simp
  | cons row rows ih =>
    have hpos : 0 < (serialize row).length := List.length_pos_of_ne_nil (serialize_ne_nil row)
    rw [serializeAll_cons, List.length_append, List.length_cons]
    omega

theorem restoreFromLog_rows (P : Platform) (m : MemTable) {rows : List SSTableRow} (hne : rows ≠ []) :
    restoreFromLog P m (IStream.ofBytes (serializeAll rows)) = .ok (m.insertAll rows) := by
  obtain ⟨row, rows, rfl⟩ := List.exists_cons_of_ne_nil hne
  have hlen := length_le_serializeAll (row :: rows)
  rw [restoreFromLog, IStream.bad_ofBytes, if_neg Bool.false_ne_true, restoreLoop_eq, readRows_rows P row rows]
  · rfl
  · rw [List.length_cons] at hlen
    show rows.length + 2 ≤ (serializeAll (row :: rows)).length + 2
    omega

/-- Behind whole rows, a row cut anywhere but at its start, or the empty log, adds one more row. -/
theorem readRows_cut (P : Platform) (rows : List SSTableRow) (row : SSTableRow) {count : Nat}
    (hcut : count < (serialize row).length) (hpos : rows = [] ∨ 0 < count) :
    ∃ cutRow, ∀ fuel, rows.length + 2 ≤ fuel →
      readRows P fuel (IStream.ofBytes (serializeAll rows ++ (serialize row).take count))
        = (rows ++ [cutRow], .ok ()) := by
  obtain ⟨cutRow, hread⟩ := deserialize_cut P row hcut
  refine ⟨cutRow, ?_⟩
  intro fuel hfuel
  obtain ⟨fuel, rfl⟩ := Nat.exists_eq_add_of_le hfuel
  have htail : rows = [] ∨ (serialize row).take count ≠ [] := by
    refine hpos.imp_right fun hcount hnil => ?_
    have hlength := congrArg List.length hnil
    rw [List.length_take, List.length_nil] at hlength
    omega
  rw [show rows.length + 2 + fuel = rows.length + (fuel + 2) by omega, readRows_append P htail,
    readRows_last hread IStream.eof_exhausted]

theorem restoreFromLog_cut (P : Platform) (m : MemTable) (rows : List SSTableRow) {row : SSTableRow}
    {count : Nat} (hcut : count < (serialize row).length) (hpos : rows = [] ∨ 0 < count) :
    ∃ cutRow, restoreFromLog P m
        (IStream.ofBytes (serializeAll rows ++ (serialize row).take count))
      = .ok (m.insertAll (rows ++ [cutRow])) := by
  obtain ⟨cutRow, hloop⟩ := readRows_cut P rows row hcut hpos
  have hlen := length_le_serializeAll rows
  refine ⟨cutRow, ?_⟩
  rw [restoreFromLog, IStream.bad_ofBytes, if_neg Bool.false_ne_true, restoreLoop_eq, hloop]
  · rfl
  · show rows.length + 2 ≤ (serializeAll rows ++ (serialize row).take count).length + 2
    rw [List.length_append]
    omega

/-- The row an empty log replays to: no field was read. -/
def phantomRow (P : Platform) : SSTableRow := ⟨⟨0⟩, ByteString.empty, ⟨P.indeterminate⟩, (0, 0)⟩

theorem restoreFromLog_empty (P : Platform) (m : MemTable) :
    restoreFromLog P m (IStream.ofBytes []) = .ok (m.insertRow (phantomRow P)) := rfl

end MemTable

/-! ### Cutting a log -/

/-- A prefix of a log ends behind a row or inside one. -/
theorem cut_serializeAll {rows : List SSTableRow} {p : List UInt8} (h : p <+: serializeAll rows) :
    ∃ n ≤ rows.length, p = serializeAll (rows.take n) ∨
      ∃ row count, 0 < count ∧ count < (serialize row).length ∧ rows[n]? = some row ∧
        p = serializeAll (rows.take n) ++ (serialize row).take count := by
  induction rows generalizing p with
  | nil =>
    refine ⟨0, le_refl _, Or.inl ?_⟩
    simpa using h
  | cons row rows ih =>
    rcases Nat.lt_or_ge p.length (serialize row).length with hlt | hge
    · have htake : p = (serialize row).take p.length := by
        have heq := List.prefix_iff_eq_take.mp h
        rw [serializeAll_cons, List.take_append_of_le_length (le_of_lt hlt)] at heq
        exact heq
      rcases Nat.eq_zero_or_pos p.length with hzero | hpos
      · refine ⟨0, Nat.zero_le _, Or.inl ?_⟩
        simpa using List.eq_nil_of_length_eq_zero hzero
      · exact ⟨0, Nat.zero_le _, Or.inr ⟨row, p.length, hpos, hlt, rfl, by simpa using htake⟩⟩
    · obtain ⟨tail, htail⟩ := h
      rw [serializeAll_cons] at htail
      obtain ⟨rest, hp, hrest⟩ : ∃ rest, p = serialize row ++ rest ∧ rest <+: serializeAll rows := by
        have hsplit := List.append_eq_append_iff.mp htail
        rcases hsplit with ⟨mid, hrow, htl⟩ | ⟨mid, hp, htl⟩
        · have hmid : mid = [] := by
            have hlen := congrArg List.length hrow
            rw [List.length_append] at hlen
            exact List.eq_nil_of_length_eq_zero (by omega)
          subst hmid
          refine ⟨[], by rw [hrow, List.append_nil, List.append_nil], List.nil_prefix⟩
        · exact ⟨mid, hp, ⟨tail, htl.symm⟩⟩
      obtain ⟨n, hn, hcases⟩ := ih hrest
      refine ⟨n + 1, by simpa using hn, ?_⟩
      rcases hcases with hrows | ⟨row', count, hpos, hcut, hget, hrows⟩
      · refine Or.inl ?_
        rw [hp, hrows, List.take_succ_cons, serializeAll_cons]
      · refine Or.inr ⟨row', count, hpos, hcut, by simpa using hget, ?_⟩
        rw [hp, hrows, List.take_succ_cons, serializeAll_cons, List.append_assoc]

theorem serializeAll_take_mono (rows : List SSTableRow) {n n' : Nat} (h : n' ≤ n) :
    serializeAll (rows.take n') <+: serializeAll (rows.take n) := by
  have hlogCut : rows.take n' <+: rows.take n := List.take_prefix_take_left h
  obtain ⟨tail, htail⟩ := hlogCut
  rw [← htail, serializeAll_append]
  exact List.prefix_append _ _

theorem serializeAll_take_lt (rows : List SSTableRow) {n n' : Nat} (hlt : n < n') (hle : n' ≤ rows.length) :
    (serializeAll (rows.take n)).length < (serializeAll (rows.take n')).length := by
  have hn : n < rows.length := by omega
  have hstep : serializeAll (rows.take (n + 1)) = serializeAll (rows.take n) ++ serialize rows[n] := by
    rw [List.take_succ_eq_append_getElem hn, serializeAll_append]
    simp
  have hpre := (serializeAll_take_mono rows (show n + 1 ≤ n' by omega)).length_le
  have hpos : 0 < (serialize rows[n]).length := List.length_pos_of_ne_nil (serialize_ne_nil _)
  rw [hstep, List.length_append] at hpre
  omega

theorem le_of_cut {rows : List SSTableRow} {row : SSTableRow} {n n' count : Nat}
    (hget : rows[n]? = some row) (hcut : count < (serialize row).length)
    (h : serializeAll (rows.take n') <+: serializeAll (rows.take n) ++ (serialize row).take count) :
    n' ≤ n := by
  by_contra hlt
  obtain ⟨hn, hrow⟩ := List.getElem?_eq_some_iff.mp hget
  have hpre := (serializeAll_take_mono rows (show n + 1 ≤ n' by omega)).length_le
  rw [List.take_succ_eq_append_getElem hn, serializeAll_append, List.length_append, hrow] at hpre
  have hlen := h.length_le
  rw [List.length_append, List.length_take] at hlen
  simp only [serializeAll_cons, serializeAll_nil, List.append_nil] at hpre
  omega

/-! ### Recovery at a cut -/

/-- A write to a memtable. -/
inductive MemTable.Write where
  | put (key : Key) (value : ByteString) (checksum : UInt128)
  | remove (key : Key)

namespace MemTable

/-- The row a write logs. -/
def Write.row : Write → SSTableRow
  | .put key value checksum => ⟨key, value, .Put, checksum⟩
  | .remove key => ⟨key, ByteString.empty, .Remove, (0, 0)⟩

def write (m : MemTable) : Write → MemTable
  | .put key value checksum => m.put key value checksum
  | .remove key => m.remove key

/-- A memtable with a log that performed the writes. -/
def performed (writes : List Write) : MemTable := writes.foldl write ({} : MemTable).setWriteAheadLog

/-- The log after the writes. -/
def loggedBytes (writes : List Write) : List UInt8 :=
  match (performed writes).wal with
  | some wal => wal.issued
  | none => []

theorem write_eq (m : MemTable) (w : Write) :
    (m.write w).map = (m.insertRow w.row).map ∧ (m.write w).counter = (m.insertRow w.row).counter ∧
      (m.write w).wal = m.wal.map fun wal => wal.log w.row := by
  cases w <;> exact ⟨rfl, rfl, rfl⟩

theorem performed_eq (writes : List Write) :
    (performed writes).map = (({} : MemTable).insertAll (writes.map Write.row)).map ∧
      loggedBytes writes = serializeAll (writes.map Write.row) := by
  have hfold : ∀ (m m' : MemTable) (wal : WriteAheadLog), m.map = m'.map → m.counter = m'.counter →
      m.wal = some wal → ∃ wal', (writes.foldl write m).wal = some wal' ∧
        wal'.issued = wal.issued ++ serializeAll (writes.map Write.row) ∧
        (writes.foldl write m).map = (m'.insertAll (writes.map Write.row)).map := by
    induction writes with
    | nil =>
      intro m m' wal hmap _ hwal
      exact ⟨wal, hwal, by simp, hmap⟩
    | cons w writes ih =>
      intro m m' wal hmap hcounter hwal
      obtain ⟨hmap', hcounter', hwal'⟩ := write_eq m w
      have hmapw : (m.write w).map = (m'.insertRow w.row).map := by
        rw [hmap']
        unfold insertRow
        simp only [hmap, hcounter]
      have hcounterw : (m.write w).counter = (m'.insertRow w.row).counter := by
        rw [hcounter']
        unfold insertRow
        simp only [hcounter]
      rw [hwal, Option.map_some] at hwal'
      obtain ⟨wal', hfinal, hissued, hmapf⟩ := ih _ _ _ hmapw hcounterw hwal'
      refine ⟨wal', hfinal, ?_, hmapf⟩
      rw [hissued, WriteAheadLog.issued_log, List.map_cons, serializeAll_cons, List.append_assoc]
  obtain ⟨wal, hwal, hissued, hmap⟩ := hfold ({} : MemTable).setWriteAheadLog {} WriteAheadLog.create
    rfl rfl rfl
  refine ⟨hmap, ?_⟩
  unfold loggedBytes performed
  rw [hwal]
  simpa using hissued

/-- Replaying the cut log `p` returns, with exactly the rows of the longest run of writes whose log `p`
still holds, and with the lookups, table and dump of the memtable that performed these writes. -/
def RecoversExactly (P : Platform) (writes : List Write) (p : List UInt8) : Prop :=
  ∃ m, restoreFromLog P {} (IStream.ofBytes p) = .ok m ∧
    ∃ n ≤ writes.length, loggedBytes (writes.take n) <+: p ∧
      (∀ n' ≤ writes.length, loggedBytes (writes.take n') <+: p → n' ≤ n) ∧
      m.map.entries = (performed (writes.take n)).map.entries ∧
      (∀ key, m.get key = (performed (writes.take n)).get key) ∧
      m.createSortedStringsTable = (performed (writes.take n)).createSortedStringsTable ∧
      m.dump = (performed (writes.take n)).dump

/-- The empty cut of a log is replayed to a row that was never logged. -/
theorem not_recoversExactly_empty :
    [] <+: loggedBytes [.put ⟨1⟩ (.single 97) (0, 0)] ∧
      ¬ RecoversExactly plainPlatform [.put ⟨1⟩ (.single 97) (0, 0)] [] := by
  refine ⟨List.nil_prefix, ?_⟩
  rintro ⟨m, hrestore, n, hn, hpre, -, hentries, -, -, -⟩
  rw [restoreFromLog_empty] at hrestore
  cases hrestore
  have hlen := congrArg List.length hentries
  rw [length_entries_insertRow, (performed_eq _).1, length_entries_insertAll] at hlen
  rw [(performed_eq _).2] at hpre
  have hnil := serializeAll_eq_nil.mp (List.prefix_nil.mp hpre)
  rw [hnil] at hlen
  simp at hlen

theorem map_row_take (writes : List Write) (n : Nat) : (writes.take n).map Write.row = (writes.map Write.row).take n :=
  List.map_take

theorem loggedBytes_eq (writes : List Write) : loggedBytes writes = serializeAll (writes.map Write.row) :=
  (performed_eq writes).2

theorem recoversExactly_take (P : Platform) {writes : List Write} {n : Nat} (hpos : 0 < n)
    (hn : n ≤ writes.length) : RecoversExactly P writes (loggedBytes (writes.take n)) := by
  have hne : (writes.take n).map Write.row ≠ [] := by
    intro h
    have hlen := congrArg List.length h
    rw [List.length_map, List.length_take, List.length_nil] at hlen
    omega
  have hentries : (({} : MemTable).insertAll ((writes.take n).map Write.row)).map
      = (performed (writes.take n)).map := (performed_eq _).1.symm
  refine ⟨_, by rw [loggedBytes_eq, restoreFromLog_rows P _ hne], n, hn, List.prefix_refl _, ?_,
    congrArg OrderedMap.entries hentries, fun key => ?_, ?_, ?_⟩
  · intro n' hn' hpre'
    by_contra hlt
    rw [loggedBytes_eq, loggedBytes_eq, map_row_take, map_row_take] at hpre'
    have hlong := serializeAll_take_lt (writes.map Write.row) (show n < n' by omega) (by simpa using hn')
    have hle := hpre'.length_le
    omega
  · unfold MemTable.get findRow
    rw [hentries]
  · unfold createSortedStringsTable
    rw [hentries]
  · unfold dump
    rw [hentries]

theorem exists_take_of_recoversExactly {P : Platform} {writes : List Write} {p : List UInt8}
    (hlogCut : p <+: loggedBytes writes) (h : RecoversExactly P writes p) :
    ∃ n, 0 < n ∧ n ≤ writes.length ∧ p = loggedBytes (writes.take n) := by
  obtain ⟨m, hrestore, n, hn, hpre, hlargest, hentries, -, -, -⟩ := h
  simp only [loggedBytes_eq, map_row_take] at hlogCut hpre hlargest ⊢
  obtain ⟨k, hk, hcases⟩ := cut_serializeAll hlogCut
  rw [List.length_map] at hk
  have hlen : m.map.entries.length = n := by
    rw [hentries, (performed_eq _).1, length_entries_insertAll, map_row_take, List.length_take, List.length_map]
    simpa using hn
  rcases hcases with hp | ⟨row, count, hpos, hcut, hget, hp⟩
  · -- the cut is behind row `k`: only the empty log has none
    refine ⟨k, ?_, hk, hp⟩
    by_contra hzero
    have hk0 : k = 0 := by omega
    subst hk0
    have hp' : p = [] := by simpa using hp
    subst hp'
    have hn0 : n = 0 := by
      have hle := hpre.length_le
      rcases Nat.eq_zero_or_pos n with h | h
      · exact h
      · have hlt := serializeAll_take_lt (writes.map Write.row) h (by simpa using hn)
        rw [List.length_nil] at hle
        omega
    rw [restoreFromLog_empty] at hrestore
    cases hrestore
    rw [length_entries_insertRow] at hlen
    omega
  · -- the cut is inside row `k`: one row too many is restored
    exfalso
    obtain ⟨cutRow, hcutRestore⟩ := restoreFromLog_cut P {} ((writes.map Write.row).take k) hcut (Or.inr hpos)
    rw [hp] at hrestore
    rw [hcutRestore] at hrestore
    cases hrestore
    have hnk : n ≤ k := le_of_cut hget hcut (hp ▸ hpre)
    rw [length_entries_insertAll, List.length_append, List.length_take, List.length_map] at hlen
    simp only [OrderedMap.entries_empty, List.length_nil, List.length_singleton] at hlen
    omega

/-- At any byte prefix of the log, recovery is exact if and only if the prefix ends behind a row. -/
theorem recoversExactly_iff (P : Platform) (writes : List Write) (p : List UInt8)
    (hlogCut : p <+: loggedBytes writes) :
    RecoversExactly P writes p ↔ ∃ n, 0 < n ∧ n ≤ writes.length ∧ p = loggedBytes (writes.take n) := by
  constructor
  · exact exists_take_of_recoversExactly hlogCut
  · rintro ⟨n, hpos, hn, rfl⟩
    exact recoversExactly_take P hpos hn

theorem recoversExactly_three :
    let writes : List Write := [.put ⟨2⟩ (.single 97) (0, 0), .put ⟨1⟩ (.single 97) (0, 0),
      .put ⟨2⟩ (.single 98) (0, 0), .remove ⟨1⟩]
    RecoversExactly plainPlatform writes (loggedBytes (writes.take 3)) := by
  intro writes
  have hlogCut : loggedBytes (writes.take 3) <+: loggedBytes writes :=
    ⟨serialize ⟨⟨1⟩, ByteString.empty, .Remove, (0, 0)⟩, rfl⟩
  exact (recoversExactly_iff plainPlatform writes _ hlogCut).mpr ⟨3, by decide, by decide, rfl⟩

end MemTable

end OmxDb
