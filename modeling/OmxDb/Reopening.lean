import OmxDb.SoundHistory

/-!
# Closing and reopening

Reopening replaces the memtable by the rows of the last session's log and lists the segments by file name.
Within a session the last logged row of a key is its newest row, in the memtable or, after a snapshot, in the
segments (`Flushed`). A key that is live in the log is therefore answered from the log as before; any other
key is answered from the segments, as before if its value was not only in the memtable and the first table
that has it keeps its rank (`get_replayed`).

No answer is an exception as long as every put value can be uncompressed: a step holds no row but those held before
it and those it brings (`FlushedWorld.leadsOn`), so every row a lookup can find is the row of a put (`ReadInv`).
-/

namespace OmxDb

open StorageEngine

/-! ### The log and the newest rows -/

/-- The last logged row of a key is its newest row. -/
def Flushed (m : MemTable) (segs : List Segment) (logged : List SSTableRow) : Prop :=
  ∀ key row, lastRow logged key = some row →
    m.findRow key = some row ∨ m.findRow key = none ∧ newestRow segs key = some row

namespace Flushed

variable {m : MemTable} {segs : List Segment} {logged : List SSTableRow}

theorem nil (m : MemTable) (segs : List Segment) : Flushed m segs [] := by
  intro key row h
  simp at h

theorem writeRow (h : Flushed m segs logged) (row : SSTableRow) :
    Flushed (m.writeRow row) segs (logged ++ [row]) := by
  intro key last hlast
  rw [lastRow_append_singleton] at hlast
  rw [MemTable.findRow_writeRow]
  by_cases hkey : row.key = key
  · rw [if_pos hkey] at hlast ⊢
    exact Or.inl hlast
  · rw [if_neg hkey] at hlast ⊢
    exact h key last hlast

theorem snapshot (h : Flushed m segs logged) (hordinary : m.HasOrdinaryKey) {segment : Nat}
    (fits : RowsFit m.createSortedStringsTable.rows) :
    Flushed m.clear (Segment.ofMemTable m segment fits :: segs) logged := by
  intro key row hlast
  refine Or.inr ⟨MemTable.findRow_clear m key, ?_⟩
  rw [newestRow_snapshot hordinary]
  rcases h key row hlast with hfind | ⟨hnone, hnewest⟩
  · rw [hfind, Option.some_or]
  · rw [hnone, Option.none_or, hnewest]

end Flushed

/-- A store that replayed the log answers a key as before if the key is live in the log, or its value was not
only in the memtable and the files still have it. -/
theorem get_replayed {P : Platform} {s s' : Store} {segs : List Segment} {logged rows : List SSTableRow}
    {key : Key} (h : RepresentsAt P s segs key) (hflushed : Flushed s.engine.memTable segs logged)
    (hmemTable : s'.engine.memTable = (({} : MemTable).insertAll rows).setWriteAheadLog)
    (hfinish : ∀ found, finishGet s'.engine found = finishGet s.engine found)
    (hlast : lastRow rows key = lastRow logged key)
    (hkey : (lastRow logged key).bind visible ≠ none ∨
      (s.engine.memTable.get key = none ∨ findOnDisk P s key = .ok (s.engine.memTable.get key)) ∧
        findOnDisk P s' key = findOnDisk P s key) : get P s' key = get P s key := by
  have hmemory : s'.engine.memTable.get key = (lastRow logged key).bind visible := by
    rw [MemTable.get_eq, hmemTable, MemTable.findRow_setWriteAheadLog, MemTable.findRow_insertAll,
      MemTable.findRow_empty, Option.or_none, hlast]
  rw [get_eq h]
  unfold StorageEngine.get StorageEngine.findInMemory found
  rw [hmemory, ← MemTable.get_eq]
  cases hlive : (lastRow logged key).bind visible with
  | none =>
    obtain ⟨hdisk, hsame⟩ := hkey.resolve_left (not_not.mpr hlive)
    rw [findOnDisk_eq h] at hdisk hsame
    rw [hsame]
    dsimp only
    rw [hfinish]
    rcases hdisk with hnone | heq
    · rw [hnone, Option.none_or]
    · rw [← Except.ok.inj heq, Option.or_self]
  | some value =>
    -- the key is live in the log: its last row was the newest
    obtain ⟨row, hrow, hvalue⟩ := Option.bind_eq_some_iff.mp hlive
    dsimp only
    rw [hfinish, MemTable.get_eq]
    congr 1
    rcases hflushed key row hrow with hfind | ⟨hnone, hnewest⟩
    · rw [hfind, Option.bind_some, hvalue, Option.some_or]
    · rw [hnone, hnewest, Option.bind_none, Option.none_or, Option.bind_some, hvalue]

/-! ### Segments in another order -/

theorem newestRow_map {α : Type*} (segment : α → Segment) (l : List α) (key : Key) :
    newestRow (l.map segment) key
      = (l.find? fun x => ((segment x).find key).isSome).bind fun x => (segment x).find key := by
  induction l with
  | nil => rfl
  | cons x l ih =>
    rw [List.map_cons, newestRow_cons, List.find?_cons, ih]
    cases hfind : (segment x).find key with
    | none => simp
    | some row => simp [hfind]

theorem newestRow_byFileName {α : Type*} {fileId : α → UInt32} (segment : α → Segment) {l : List α} {key : Key}
    {x : α} {row : SSTableRow} (hdistinct : l.Pairwise fun a b => fileId a ≠ fileId b) (hx : x ∈ l)
    (hfind : (segment x).find key = some row)
    (hmax : ∀ y ∈ l, (segment y).find key ≠ none →
      indexFile (fileId y).toNat ≤ indexFile (fileId x).toNat) :
    newestRow ((byFileName fileId l).map segment) key = some row := by
  have hfirst := Selection.find?_eq_some_of_le (fun x => ((segment x).find key).isSome)
    (byFileName_pairwise hdistinct) (mem_byFileName.mpr hx) (by rw [hfind]; rfl) (by
      intro y hy hsome
      exact hmax y (mem_byFileName.mp hy) (Option.isSome_iff_ne_none.mp hsome))
  rw [newestRow_map, hfirst, Option.bind_some, hfind]

theorem newestRow_eq_none {segs : List Segment} {key : Key} :
    newestRow segs key = none ↔ ∀ seg ∈ segs, seg.find key = none :=
  List.findSome?_eq_none_iff

/-- The table the index answers from has the greatest file name of the tables with the key. -/
def FirstHasGreatestName (index : Index) (key : Key) : Prop :=
  ∀ hint, index.get key = some hint → ∀ t ∈ index.tableIndexes, t.get key ≠ none →
    indexFile t.fileId.toNat ≤ indexFile hint.fileId.toNat

theorem exists_table_of_segment {tables : List SSTableIndex} {segs : List Segment} {key : Key}
    (h : List.Forall₂ (TableOf key) tables segs) {seg : Segment} (hseg : seg ∈ segs)
    (hfind : seg.find key ≠ none) :
    ∃ t ∈ tables, t.fileId = seg.fileId ∧ t.get key ≠ none := by
  induction h with
  | nil => cases hseg
  | @cons t seg' tables segs ht _ ih =>
    rcases List.mem_cons.mp hseg with rfl | hseg
    · refine ⟨t, by simp, ht.1, ?_⟩
      rw [ht.2]
      exact Segment.get_tableIndex_ne_none.mpr hfind
    · obtain ⟨t', ht', h⟩ := ih hseg
      exact ⟨t', List.mem_cons_of_mem _ ht', h⟩

theorem newestRow_cases {P : Platform} {s : Store} {segs : List Segment} {key : Key}
    (h : RepresentsAt P s segs key) (hfirst : FirstHasGreatestName s.engine.index key) :
    newestRow segs key = none ∨ ∃ seg ∈ segs, ∃ row, newestRow segs key = some row ∧
      seg.find key = some row ∧ ∀ seg' ∈ segs, seg'.find key ≠ none →
        indexFile seg'.fileId.toNat ≤ indexFile seg.fileId.toNat := by
  rcases getLoop_segments h.index with ⟨hnone, -⟩ | ⟨seg, hseg, row, hint, hnewest, hfind, -, hloop⟩
  · exact Or.inl hnone
  · refine Or.inr ⟨seg, hseg, row, hnewest, hfind, ?_⟩
    intro seg' hseg' hfind'
    obtain ⟨t, ht, hid, hget⟩ := exists_table_of_segment h.index hseg' hfind'
    rw [← hid]
    exact hfirst _ hloop t ht hget

theorem newestRow_reload {P : Platform} {s : Store} {segs : List Segment} {key : Key}
    (h : RepresentsAt P s segs key) (hdistinct : segs.Pairwise fun a b => a.fileId ≠ b.fileId)
    (hfirst : FirstHasGreatestName s.engine.index key) :
    newestRow (byFileName Segment.fileId segs) key = newestRow segs key := by
  rcases newestRow_cases h hfirst with hnone | ⟨seg, hseg, row, hnewest, hfind, hmax⟩
  · rw [hnone]
    rw [newestRow_eq_none] at hnone ⊢
    intro seg hseg
    exact hnone seg (mem_byFileName.mp hseg)
  · rw [hnewest, ← List.map_id (byFileName Segment.fileId segs)]
    exact newestRow_byFileName id hdistinct hseg hfind hmax

/-! ### Runs -/

/-- A snapshot has a free 32-bit number, rows the hints can address and a key other than `npos`. -/
def SnapshotKeepsRows (w : World) : Event → Prop
  | .put _ key value => ∀ e, w.engine = some e → SnapshotFresh ⟨w.disk, e⟩ key value ∧
      ∀ s, putRow ⟨w.disk, e⟩ key value = .ok s → snapshotDue s = true → s.engine.memTable.HasOrdinaryKey
  | _ => True

/-- The world stands for segments with rows, and the log of a session holds its newest rows. -/
structure FlushedWorld (P : Platform) (w : World) (segs : List Segment) : Prop where
  rows : ∀ seg ∈ segs, seg.rows ≠ []
  world : SoundWorld P w segs
  flushed : ∀ e, w.engine = some e → ∃ logged, Logged e.memTable logged ∧ Flushed e.memTable segs logged

def FlushInv (P : Platform) (w : World) : Prop := ∃ segs, FlushedWorld P w segs

theorem flushedWorld_empty (P : Platform) : FlushedWorld P {} [] := by
  refine ⟨by simp, soundWorld_empty P, ?_⟩
  intro e he
  cases he

/-- A row of a segment, or the newest of its key in the memtable, which a closed directory has in its log. -/
def Holds (P : Platform) (w : World) (segs : List Segment) (row : SSTableRow) : Prop :=
  (∃ seg ∈ segs, row ∈ seg.rows) ∨
    match w.engine with
    | some e => e.memTable.findRow row.key = some row
    | none => ∃ m, replayLog P w.disk.wal = .ok m ∧ m.findRow row.key = some row

/-- The rows a step can bring: a tombstone, the row of a put, or whatever an empty log replays to. -/
def Brings (w : World) (event : Event) (row : SSTableRow) : Prop :=
  row.entryType = .Remove ∨
  (∃ opened value e, event = .put opened row.key value ∧ w.engine = some e ∧
    putRow ⟨w.disk, e⟩ row.key value = .ok (Store.write ⟨w.disk, e⟩ row)) ∨
  ∃ e, event = .close ∧ w.engine = some e ∧ (close ⟨w.disk, e⟩).wal = some []

/-- The options of the directory, or any while it has none. -/
def HasOptions (disk : Disk) (opts : Options) : Prop := disk.options = none ∨ disk.options = some (saveOptions opts)

/-- The step leads to segments again, where no row is held but those held before and those it brings, under the same
options. -/
def LeadsOn (P : Platform) (w : World) (segs : List Segment) (event : Event) : Prop :=
  ∃ segs', FlushedWorld P (step P w event) segs' ∧
    (∀ row, Holds P (step P w event) segs' row → Holds P w segs row ∨ Brings w event row) ∧
    ∀ opts, HasOptions (step P w event).disk opts → HasOptions w.disk opts

namespace FlushedWorld

variable {P : Platform} {disk : Disk} {snapshots : List (Nat × SSTable)} {segs : List Segment}

theorem leadsOn_open (h : FlushedWorld P ⟨disk, none, snapshots⟩ segs) (options : Options) :
    LeadsOn P ⟨disk, none, snapshots⟩ segs (.open options) := by
  obtain ⟨hrows, hworld, -⟩ := h
  obtain ⟨hpersisted, hoptions, hwal⟩ := hworld
  obtain ⟨s, m, hopen, hsound, hlog, hmemTable, hopts⟩ := open_persisted hpersisted hoptions hwal hrows options
  have hlogged : Logged s.engine.memTable [] := hmemTable ▸ Logged.setWriteAheadLog m
  unfold LeadsOn
  rw [step_open hopen]
  refine ⟨byFileName Segment.fileId segs, ⟨?_, .opened hsound hlogged, ?_⟩, ?_, ?_⟩
  · intro seg hseg
    exact hrows seg (mem_byFileName.mp hseg)
  · rintro e ⟨⟩
    exact ⟨[], hlogged, Flushed.nil _ _⟩
  · rintro row (⟨seg, hseg, hrow⟩ | hfind)
    · exact Or.inl (Or.inl ⟨seg, mem_byFileName.mp hseg, hrow⟩)
    · refine Or.inl (Or.inr ⟨m, hlog, ?_⟩)
      dsimp only at hfind
      rw [hmemTable, MemTable.findRow_setWriteAheadLog] at hfind
      exact hfind
  · intro opts hnew
    rcases hoptions with hnone | ⟨saved, hsaved⟩
    · exact Or.inl hnone
    · have hsame : s.disk.options = disk.options := by rw [hsound.options, hopts saved hsaved, hsaved]
      unfold HasOptions at hnew ⊢
      rw [← hsame]
      exact hnew

section opened

variable {e : StorageEngine}

theorem holds_writeRow {row row' : SSTableRow} (h : (e.memTable.writeRow row).findRow row'.key = some row') :
    row' = row ∨ Holds P ⟨disk, some e, snapshots⟩ segs row' := by
  rw [MemTable.findRow_writeRow] at h
  split_ifs at h
  · exact Or.inl (Option.some.inj h).symm
  · exact Or.inr (Or.inr h)

theorem write (h : FlushedWorld P ⟨disk, some e, snapshots⟩ segs) (row : SSTableRow)
    (snapshots' : List (Nat × SSTable)) :
    FlushedWorld P ⟨disk, some (Store.write ⟨disk, e⟩ row).engine, snapshots'⟩ segs := by
  obtain ⟨hrows, hworld, hflushed⟩ := h
  obtain ⟨logged, hlogged, hnewest⟩ := hflushed e rfl
  have hsound := hworld.sound
  refine ⟨hrows, .opened (hsound.withMemTable _) (hlogged.writeRow row), ?_⟩
  rintro e' ⟨⟩
  exact ⟨logged ++ [row], hlogged.writeRow row, hnewest.writeRow row⟩

theorem leadsOn_put (h : FlushedWorld P ⟨disk, some e, snapshots⟩ segs) {key : Key} {value : ByteString}
    (hkeeps : SnapshotKeepsRows ⟨disk, some e, snapshots⟩ (.put {} key value)) :
    LeadsOn P ⟨disk, some e, snapshots⟩ segs (.put {} key value) := by
  obtain ⟨hrows, hworld, hflushed⟩ := id h
  obtain ⟨logged, hlogged, hnewest⟩ := hflushed e rfl
  have hsound := hworld.sound
  obtain ⟨hfresh, hordinary⟩ := hkeeps e rfl
  unfold LeadsOn
  rcases hsound.put_cases hfresh with ⟨fault, -, hput, hsnapshot⟩ |
    ⟨row, rfl, -, hrow, ⟨hput, hsnapshot⟩ | ⟨fits, s', hdue, hput, hsound', -, hmemTable, hopts, -⟩⟩
  · rw [step_put hput, hsnapshot]
    exact ⟨segs, ⟨hrows, .opened hsound hlogged, hflushed⟩, fun _ => Or.inl, fun _ => id⟩
  · rw [step_put hput, hsnapshot]
    refine ⟨segs, h.write row _, ?_, fun _ => id⟩
    rintro row' (hseg | hfind)
    · exact Or.inl (Or.inl hseg)
    · rcases holds_writeRow hfind with rfl | hold
      · exact Or.inr (Or.inr (Or.inl ⟨{}, value, e, rfl, rfl, hrow⟩))
      · exact Or.inl hold
  · have hkeys := hordinary _ hrow hdue
    have hlogged' : Logged s'.engine.memTable (logged ++ [row]) := hmemTable ▸ (hlogged.writeRow row).clear
    rw [step_put hput]
    refine ⟨_ :: segs, ⟨?_, .opened hsound' hlogged', ?_⟩, ?_, ?_⟩
    · intro seg hseg
      rcases List.mem_cons.mp hseg with rfl | hseg
      · exact MemTable.sortedStringsTable_ne_nil hkeys
      · exact hrows seg hseg
    · rintro e' ⟨⟩
      exact ⟨_, hlogged', hmemTable ▸ (hnewest.writeRow row).snapshot hkeys fits⟩
    · rintro row' (⟨seg, hseg, hmem⟩ | hfind)
      · rcases List.mem_cons.mp hseg with rfl | hseg
        · -- the rows of the new segment are the newest of the memtable
          rcases holds_writeRow (MemTable.findRow_of_mem_sortedStringsTable hkeys hmem) with rfl | hold
          · exact Or.inr (Or.inr (Or.inl ⟨{}, value, e, rfl, rfl, hrow⟩))
          · exact Or.inl hold
        · exact Or.inl (Or.inl ⟨seg, hseg, hmem⟩)
      · dsimp only at hfind
        rw [hmemTable, MemTable.findRow_clear] at hfind
        cases hfind
    · intro opts hnew
      have hsame : s'.disk.options = disk.options := by rw [hsound'.options, hopts, hsound.options]
      unfold HasOptions at hnew ⊢
      rw [← hsame]
      exact hnew

theorem leadsOn_remove (h : FlushedWorld P ⟨disk, some e, snapshots⟩ segs) (key : Key) :
    LeadsOn P ⟨disk, some e, snapshots⟩ segs (.remove key) := by
  obtain ⟨row, hrow⟩ : ∃ row : SSTableRow, row = ⟨key, ByteString.empty, .Remove, (0, 0)⟩ := ⟨_, rfl⟩
  have hstep : step P ⟨disk, some e, snapshots⟩ (.remove key)
      = ⟨disk, some (Store.write ⟨disk, e⟩ row).engine, snapshots⟩ := by rw [hrow]; rfl
  unfold LeadsOn
  rw [hstep]
  refine ⟨segs, h.write row _, ?_, fun _ => id⟩
  rintro row' (hseg | hfind)
  · exact Or.inl (Or.inl hseg)
  · rcases holds_writeRow hfind with rfl | hold
    · exact Or.inr (Or.inl (by rw [hrow]))
    · exact Or.inl hold

theorem leadsOn_close (h : FlushedWorld P ⟨disk, some e, snapshots⟩ segs) :
    LeadsOn P ⟨disk, some e, snapshots⟩ segs .close := by
  obtain ⟨hrows, hworld, hflushed⟩ := h
  obtain ⟨logged, hlogged, hnewest⟩ := hflushed e rfl
  have hsound := hworld.sound
  unfold LeadsOn
  rw [step_close hlogged]
  refine ⟨segs, ⟨hrows, .closed (hsound.persisted.withWal _) (Or.inr ⟨_, hsound.options⟩)
    (Or.inr ⟨logged, rfl⟩), ?_⟩, ?_, fun _ => id⟩
  · intro e' he'
    cases he'
  · rintro row (hseg | ⟨m, hreplay, hfind⟩)
    · exact Or.inl (Or.inl hseg)
    · dsimp only at hreplay
      by_cases hnil : logged = []
      · refine Or.inr (Or.inr (Or.inr ⟨e, rfl, rfl, ?_⟩))
        rw [close_eq (s := ⟨disk, e⟩) hlogged, hnil]
        rfl
      · -- the last logged row of a key is its newest
        rw [replayLog_serializeAll, if_neg hnil, Except.ok.injEq] at hreplay
        rw [← hreplay, MemTable.findRow_insertAll, MemTable.findRow_empty, Option.or_none] at hfind
        rcases hnewest row.key row hfind with hheld | ⟨-, hsegment⟩
        · exact Or.inl (Or.inr hheld)
        · obtain ⟨seg, hseg, hrow⟩ := exists_of_newestRow hsegment
          exact Or.inl (Or.inl ⟨seg, hseg, List.mem_of_find?_eq_some hrow⟩)

end opened

theorem leadsOn {w : World} {event : Event} (h : FlushedWorld P w segs) (hopened : event.Succeeds)
    (hkeeps : SnapshotKeepsRows w event) : LeadsOn P w segs event := by
  obtain ⟨disk, _ | e, snapshots⟩ := w
  · cases event with
    | «open» options => exact h.leadsOn_open options
    | _ => exact ⟨segs, h, fun _ => Or.inl, fun _ => id⟩
  · cases event with
    | «open» options => exact ⟨segs, h, fun _ => Or.inl, fun _ => id⟩
    | put opened key value =>
      cases hopened
      exact h.leadsOn_put hkeeps
    | remove key => exact h.leadsOn_remove key
    | close => exact h.leadsOn_close

end FlushedWorld

theorem FlushInv.step {P : Platform} {w : World} {event : Event} (h : FlushInv P w)
    (hopened : event.Succeeds) (hkeeps : SnapshotKeepsRows w event) : FlushInv P (step P w event) := by
  obtain ⟨segs, hflushed⟩ := h
  obtain ⟨segs', hflushed', -⟩ := hflushed.leadsOn hopened hkeeps
  exact ⟨segs', hflushed'⟩

/-- The session logged a row, and every key is live in its log, or is not held live in the memtable alone and
keeps its first table in front. -/
def ReopenSafe (P : Platform) (s : Store) : Prop :=
  (close s).wal ≠ some [] ∧ ∃ m, replayLog P (close s).wal = .ok m ∧
    ∀ key, m.get key ≠ none ∨
      (s.engine.memTable.get key = none ∨ findOnDisk P s key = .ok (s.engine.memTable.get key)) ∧
        FirstHasGreatestName s.engine.index key

def ClosesSafely (P : Platform) (w : World) : Event → Prop
  | .close => ∀ e, w.engine = some e → ReopenSafe P ⟨w.disk, e⟩
  | _ => True

theorem get_insertAll (logged : List SSTableRow) (key : Key) :
    (({} : MemTable).insertAll logged).get key = (lastRow logged key).bind visible := by
  rw [MemTable.get_eq, MemTable.findRow_insertAll, MemTable.findRow_empty, Option.or_none]

/-- After a close the next open returns and answers every key as before the close, and no answer is an exception. -/
def ReopensSame (P : Platform) (w : World) : Event → Prop
  | .close => ∀ e, w.engine = some e → ∀ options, ∃ s : Store,
      «open» P {} options {} (close ⟨w.disk, e⟩) = (s.disk, .ok s.engine) ∧
        ∀ key, ∃ answer, get P ⟨w.disk, e⟩ key = .ok answer ∧ get P s key = .ok answer
  | _ => True

/-- After a close that is safe the next open answers every key as before. -/
theorem FlushedWorld.get_reopened {P : Platform} {disk : Disk} {e : StorageEngine} {snapshots : List (Nat × SSTable)}
    {segs : List Segment} (h : FlushedWorld P ⟨disk, some e, snapshots⟩ segs) (hsafe : ReopenSafe P ⟨disk, e⟩)
    (options : Options) : ∃ s : Store, «open» P {} options {} (close ⟨disk, e⟩) = (s.disk, .ok s.engine) ∧
      ∀ key, get P s key = get P ⟨disk, e⟩ key := by
  obtain ⟨hrows, hworld, hflushed⟩ := h
  have hsound := hworld.sound
  obtain ⟨logged, hlogged, hnewest⟩ := hflushed e rfl
  obtain ⟨hwal, m, hreplay, hkeys⟩ := hsafe
  have hclose := close_eq (s := ⟨disk, e⟩) hlogged
  have hne : logged ≠ [] := by
    rintro rfl
    rw [hclose] at hwal
    exact hwal rfl
  rw [hclose, replayLog_serializeAll, if_neg hne, Except.ok.injEq] at hreplay
  obtain ⟨s, m', hopen, hsound', hlog, hmemTable, hopts⟩ :=
    open_persisted (hsound.persisted.withWal (some (serializeAll logged))) (Or.inr ⟨_, hsound.options⟩)
      (Or.inr ⟨logged, rfl⟩) hrows options
  rw [replayLog_serializeAll, if_neg hne, Except.ok.injEq] at hlog
  refine ⟨s, by rw [hclose]; exact hopen, ?_⟩
  intro key
  have hkey := hkeys key
  rw [← hreplay, get_insertAll] at hkey
  apply get_replayed (hsound.at key) hnewest (hlog ▸ hmemTable)
    (hsound.finishGet_eq hsound' (hopts _ hsound.options)) rfl
  refine hkey.imp_right fun hdisk => ⟨hdisk.1, ?_⟩
  rw [findOnDisk_eq (hsound'.at key), findOnDisk_eq (hsound.at key),
    newestRow_reload (hsound.at key) hsound.persisted.distinct hdisk.2]

/-! ### No answer is an exception -/

/-- An engine with the options answers a lookup that finds the row. -/
def Reads (P : Platform) (opts : Options) (row : SSTableRow) : Prop :=
  ∀ e : StorageEngine, e.compressor = some (createCompressor P opts.compressionType) →
    e.hasher = createHasher P opts.hashType → ∃ answer, finishGet e (visible row) = .ok answer

/-- What a put compresses can be uncompressed. -/
def PutsRead (w : World) : Event → Prop
  | .put _ _ value => ∀ e compressor compressed, w.engine = some e → e.compressor = some compressor →
      compressor.compress value = .ok compressed → ∃ answer, compressor.uncompress compressed = .ok answer
  | _ => True

theorem row_of_putRow {s : Store} {row : SSTableRow} {value : ByteString}
    (h : putRow s row.key value = .ok (s.write row)) :
    ∃ compressor hasher compressed, s.engine.compressor = some compressor ∧ s.engine.hasher = some hasher ∧
      compressor.compress value = .ok compressed ∧ row = ⟨row.key, compressed, .Put, hasher.hash compressed⟩ := by
  cases hcompressor : s.engine.compressor with
  | none => simp [putRow, hcompressor] at h
  | some compressor =>
    cases hcompress : compressor.compress value with
    | error fault => simp [putRow, hcompressor, hcompress] at h
    | ok compressed =>
      cases hhasher : s.engine.hasher with
      | none => simp [putRow, hcompressor, hcompress, hhasher] at h
      | some hasher =>
        refine ⟨compressor, hasher, compressed, rfl, rfl, hcompress, ?_⟩
        rw [putRow_eq row.key hcompressor hhasher hcompress, Except.ok.injEq] at h
        have hfind := congrArg (fun s : Store => s.engine.memTable.findRow row.key) h
        simp only [Store.write, Store.withMemTable, MemTable.findRow_writeRow, if_true, Option.some.injEq] at hfind
        exact hfind.symm

theorem FlushedWorld.configured {P : Platform} {w : World} {segs : List Segment} (h : FlushedWorld P w segs)
    {e : StorageEngine} (hengine : w.engine = some e) {opts : Options} (hopts : HasOptions w.disk opts) :
    e.compressor = some (createCompressor P opts.compressionType) ∧ e.hasher = createHasher P opts.hashType := by
  obtain ⟨disk, engine, snapshots⟩ := w
  cases hengine
  have hsound := h.world.sound
  have hsame : e.opts = opts := by
    rcases hopts with hnone | hsaved
    · rw [hsound.options] at hnone
      cases hnone
    · have hload := loadOptions_saveOptions {} opts
      rw [← Option.some.inj (hsound.options.symm.trans hsaved), loadOptions_saveOptions] at hload
      exact Except.ok.inj hload
  rw [← hsame]
  exact ⟨hsound.compressor, hsound.hasher⟩

/-- The world stands for segments, and every row it holds can be read. -/
def ReadInv (P : Platform) (w : World) : Prop :=
  ∃ segs, FlushedWorld P w segs ∧ ∀ opts, HasOptions w.disk opts → ∀ row, Holds P w segs row → Reads P opts row

theorem readInv_empty (P : Platform) : ReadInv P {} := by
  refine ⟨[], flushedWorld_empty P, ?_⟩
  rintro opts - row (⟨seg, hseg, -⟩ | ⟨m, hreplay, hfind⟩)
  · cases hseg
  · cases hreplay
    cases hfind

theorem ReadInv.step {P : Platform} {w : World} {event : Event} (h : ReadInv P w) (hopened : event.Succeeds)
    (hkeeps : SnapshotKeepsRows w event) (hputs : PutsRead w event) (hsafe : ClosesSafely P w event) :
    ReadInv P (step P w event) := by
  obtain ⟨segs, hflushed, hreads⟩ := h
  obtain ⟨segs', hflushed', hheld, hopts⟩ := hflushed.leadsOn hopened hkeeps
  refine ⟨segs', hflushed', ?_⟩
  intro opts hhas row hrow
  rcases hheld row hrow with hold | hremove | ⟨opened, value, e, rfl, hengine, hput⟩ | ⟨e, rfl, hengine, hempty⟩
  · exact hreads opts (hopts opts hhas) row hold
  · intro e _ _
    exact ⟨none, by rw [visible_eq_none_iff.mpr hremove]; rfl⟩
  · obtain ⟨compressor, hasher, compressed, hcompressor, hhasher, hcompress, hrow⟩ := row_of_putRow hput
    obtain ⟨answer, huncompress⟩ := hputs e compressor compressed hengine hcompressor hcompress
    have hconfigured := hflushed.configured hengine (hopts opts hhas)
    rintro e' hcompressor' hhasher'
    rw [← hconfigured.1, hcompressor] at hcompressor'
    rw [← hconfigured.2, hhasher] at hhasher'
    refine ⟨some answer, ?_⟩
    rw [hrow]
    simp [finishGet, visible, EntryType.Put, EntryType.Remove, hhasher', hcompressor', huncompress, Except.map]
  · exact absurd hempty (hsafe e hengine).1

theorem ReadInv.get_ok {P : Platform} {disk : Disk} {e : StorageEngine} {snapshots : List (Nat × SSTable)}
    (h : ReadInv P ⟨disk, some e, snapshots⟩) (key : Key) : ∃ answer, get P ⟨disk, e⟩ key = .ok answer := by
  obtain ⟨segs, hflushed, hreads⟩ := h
  have hsound := hflushed.world.sound
  have hrow : ∀ row, Holds P ⟨disk, some e, snapshots⟩ segs row →
      ∃ answer, finishGet e (visible row) = .ok answer :=
    fun row hrow => hreads e.opts (Or.inr hsound.options) row hrow e hsound.compressor hsound.hasher
  rw [get_eq (hsound.at key)]
  unfold found
  dsimp only
  cases hmemory : (e.memTable.findRow key).bind visible with
  | some value =>
    obtain ⟨row, hfind, hvalue⟩ := Option.bind_eq_some_iff.mp hmemory
    rw [Option.some_or, ← hvalue]
    exact hrow row (Or.inr (by rw [MemTable.key_of_findRow hfind]; exact hfind))
  | none =>
    rw [Option.none_or]
    cases hnewest : newestRow segs key with
    | none => exact ⟨none, rfl⟩
    | some row =>
      obtain ⟨seg, hseg, hfind⟩ := exists_of_newestRow hnewest
      exact hrow row (Or.inl ⟨seg, hseg, List.mem_of_find?_eq_some hfind⟩)

theorem ReadInv.reopensSame {P : Platform} {w : World} {event : Event} (h : ReadInv P w)
    (hsafe : ClosesSafely P w event) : ReopensSame P w event := by
  cases event with
  | close =>
    intro e hengine options
    obtain ⟨disk, engine, snapshots⟩ := w
    cases hengine
    obtain ⟨segs, hflushed, -⟩ := id h
    obtain ⟨s, hopen, hsame⟩ := hflushed.get_reopened (hsafe e rfl) options
    refine ⟨s, hopen, ?_⟩
    intro key
    obtain ⟨answer, hanswer⟩ := h.get_ok key
    exact ⟨answer, hanswer, (hsame key).trans hanswer⟩
  | _ => trivial

/-- In a history whose values can be read, whose snapshots keep their rows and whose sessions close safely, every open
answers every key as the session before it did when it was closed, and nothing throws. -/
theorem reopensSame_of_meets (P : Platform) (events : List Event)
    (hopened : ∀ event ∈ events, event.Succeeds) (hkeeps : Runs.Meets (step P) SnapshotKeepsRows {} events)
    (hputs : Runs.Meets (step P) PutsRead {} events) (hsafe : Runs.Meets (step P) (ClosesSafely P) {} events) :
    Runs.Meets (step P) (ReopensSame P) {} events := by
  have hmeets := (Runs.Meets.of_forall (step P) {} hopened).and (hkeeps.and (hputs.and hsafe))
  refine Runs.Meets.of_inv (ReadInv P) ?_ ?_ hmeets (readInv_empty P)
  · rintro w event hinv ⟨hopened, hkeeps, hputs, hsafe⟩
    exact hinv.step hopened hkeeps hputs hsafe
  · rintro w event hinv ⟨-, -, -, h⟩
    exact hinv.reopensSame h

/-- One value is put, and the directory is closed. -/
def putAndClose : List Event :=
  [.open { plainOptions with maxMemTableSize := 1024 }, .put {} ⟨1⟩ (.single 97), .close]

theorem store_putAndClose :
    ∃ e, (Runs.run (step plainPlatform) {} (putAndClose.take 2)).engine = some e ∧
      (close ⟨(Runs.run (step plainPlatform) {} (putAndClose.take 2)).disk, e⟩).wal
        = some (serializeAll [⟨⟨1⟩, .single 97, .Put, (0, 0)⟩]) ∧
      e.memTable = ({} : MemTable).setWriteAheadLog.writeRow ⟨⟨1⟩, .single 97, .Put, (0, 0)⟩ ∧
      e.index.tableIndexes = [] :=
  ⟨_, rfl, rfl, rfl, rfl⟩

theorem reopensSame_putAndClose :
    Runs.Meets (step plainPlatform) (ReopensSame plainPlatform) {} putAndClose := by
  apply reopensSame_of_meets
  · intro event hevent
    simp only [putAndClose, List.mem_cons, List.not_mem_nil, or_false] at hevent
    rcases hevent with rfl | rfl | rfl <;> trivial
  · refine ⟨trivial, ?_, trivial, trivial⟩
    rintro e ⟨⟩
    refine ⟨?_, ?_⟩
    · intro s hrow hdue
      cases hrow
      exact absurd hdue (by decide)
    · intro s hrow hdue
      cases hrow
      exact absurd hdue (by decide)
  · refine ⟨trivial, ?_, trivial, trivial⟩
    rintro e compressor compressed ⟨⟩ ⟨⟩ hcompress
    exact ⟨compressed, rfl⟩
  · refine ⟨trivial, trivial, ?_, trivial⟩
    intro e hengine
    obtain ⟨e', hengine', hwal, hmemTable, htables⟩ := store_putAndClose
    have heq : e = e' := Option.some_inj.mp (hengine.symm.trans hengine')
    subst heq
    have hlog := MemTable.restoreFromLog_rows plainPlatform {}
      (List.cons_ne_nil (⟨⟨1⟩, .single 97, .Put, (0, 0)⟩ : SSTableRow) [])
    refine ⟨fun hnil => ?_, _, (congrArg (replayLog plainPlatform) hwal).trans hlog, ?_⟩
    · have hrows := serializeAll_eq_nil.mp (Option.some_inj.mp (hwal.symm.trans hnil))
      cases hrows
    · intro key
      rw [get_insertAll, lastRow_cons, lastRow_nil, Option.none_or]
      by_cases hkey : (⟨1⟩ : Key) = key
      · rw [if_pos hkey]
        exact Or.inl (Option.some_ne_none _)
      · refine Or.inr ⟨Or.inl ?_, ?_⟩
        · show e.memTable.get key = none
          rw [hmemTable, MemTable.get_eq, MemTable.findRow_writeRow, if_neg hkey]
          rfl
        · intro hint hget
          unfold Index.get at hget
          rw [htables] at hget
          cases hget

/-- A session that logs nothing loses what the session before it logged: key 1 is found when it is closed and
not found when the directory is opened again. -/
theorem not_reopensSame_restart :
    ¬ ReopensSame plainPlatform (Runs.run (step plainPlatform) {} putAndRestart) .close := by
  have hbefore : (Runs.run (step plainPlatform) {} putAndRestart).get plainPlatform ⟨1⟩
      = some (.ok (some (.single 97))) := by decide +kernel
  have hafter : (Runs.run (step plainPlatform) {}
      (putAndRestart ++ [.close, .open plainOptions])).get plainPlatform ⟨1⟩ = some (.ok none) := by
    decide +kernel
  rw [Runs.run_append] at hafter
  generalize Runs.run (step plainPlatform) {} putAndRestart = w at hbefore hafter
  intro h
  obtain ⟨disk, _ | e, snapshots⟩ := w
  · cases hbefore
  · obtain ⟨s, hopen, hget⟩ := h e rfl plainOptions
    rw [Runs.run_cons, Runs.run_cons, Runs.run_nil] at hafter
    have hclosed : step plainPlatform ⟨disk, some e, snapshots⟩ .close
        = ⟨close ⟨disk, e⟩, none, snapshots⟩ := rfl
    rw [hclosed, step_open hopen] at hafter
    obtain ⟨answer, hanswer, hreopened⟩ := hget ⟨1⟩
    have hfound := hanswer.symm.trans (Option.some_inj.mp hbefore)
    have hlost := hreopened.symm.trans (Option.some_inj.mp hafter)
    rw [hfound] at hlost
    cases hlost

end OmxDb
