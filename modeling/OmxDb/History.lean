import OmxDb.Lib.Runs
import OmxDb.Opening

/-!
# Histories of a directory

A `World` is a directory, the engine that has it open, if any, and a record of the segments written so far;
`step` takes it through opens, puts, removes and closes. `put_cases` says once what a put can do.

The first result about histories concerns the log. Replayed rows go into the memtable and not into the log
that replaces theirs, so a row is safe only once a segment has it: `unwrittenRowsLogged_iff` shows that a
history keeps every unwritten row in its log exactly if every log it opens replays to written rows.
-/

namespace OmxDb

open StorageEngine

/-! ### Worlds and events -/

inductive Event where
  | open (options : Options)
  | put (opened : SnapshotStreams) (key : Key) (value : ByteString)
  | remove (key : Key)
  | close

/-- All output files of the event open. -/
def Event.Succeeds : Event → Prop
  | .put opened _ _ => opened = {}
  | _ => True

/-- `snapshots` lists number and table of every segment file written, the last one first. -/
structure World where
  disk : Disk := {}
  engine : Option StorageEngine := none
  snapshots : List (Nat × SSTable) := []

/-- The store with the row logged and inserted. -/
def Store.write (s : Store) (row : SSTableRow) : Store := s.withMemTable (s.engine.memTable.writeRow row)

theorem Sound.write {P : Platform} {s : Store} {segs : List Segment} (h : Sound P s segs)
    (row : SSTableRow) : Sound P (s.write row) segs := h.withMemTable _

/-- The segment file a put writes, if it writes one. -/
def snapshotOf (opened : SnapshotStreams) (s : Store) (key : Key) (value : ByteString) :
    Option (Nat × SSTable) :=
  match putRow s key value with
  | .error _ => none
  | .ok s =>
    if snapshotDue s && opened.segment then
      some (s.engine.segmentId, s.engine.memTable.createSortedStringsTable)
    else none

/-- A closed directory can be opened, an open one can be written to and closed. -/
def step (P : Platform) (w : World) (event : Event) : World :=
  match w.engine, event with
  | none, .open options =>
    match StorageEngine.open P {} options {} w.disk with
    | (disk, .error _) => { w with disk := disk }
    | (disk, .ok e) => { w with disk := disk, engine := some e }
  | some e, .put opened key value =>
    let s := (StorageEngine.put P opened ⟨w.disk, e⟩ key value).1
    { disk := s.disk
      engine := some s.engine
      snapshots := (snapshotOf opened ⟨w.disk, e⟩ key value).toList ++ w.snapshots }
  | some e, .remove key => { w with engine := some (StorageEngine.remove ⟨w.disk, e⟩ key).engine }
  | some e, .close => { w with disk := StorageEngine.close ⟨w.disk, e⟩, engine := none }
  | none, _ => w
  | some _, .open _ => w

namespace World

/-- The rows written to segments so far. -/
def written (w : World) : List SSTableRow := w.snapshots.flatMap fun snapshot => snapshot.2.rows

/-- The last segment file written with a row of the key has this row, and has not been written again. -/
def NewestSegmentRow (w : World) (row : SSTableRow) : Prop :=
  ∃ newer number table older, w.snapshots = newer ++ (number, table) :: older ∧ row ∈ table.rows ∧
    ∀ later ∈ newer, later.1 ≠ number ∧ ∀ row' ∈ later.2.rows, row'.key ≠ row.key

/-- What a `get` on the open store answers. -/
def get (P : Platform) (w : World) (key : Key) : Option (Except Fault (Option ByteString)) :=
  w.engine.map fun e => StorageEngine.get P ⟨w.disk, e⟩ key

end World

/-! ### What a call can do -/

theorem putRow_eq {s : Store} (key : Key) {value compressed : ByteString} {compressor : ICompression}
    {hasher : IHasher} (hcompressor : s.engine.compressor = some compressor)
    (hhasher : s.engine.hasher = some hasher) (hcompress : compressor.compress value = .ok compressed) :
    putRow s key value = .ok (s.write ⟨key, compressed, .Put, hasher.hash compressed⟩) := by
  simp only [putRow, Store.write, Store.withMemTable, hcompressor, hcompress, hhasher]
  rfl

/-- The compressor gives the value back. -/
def GivesBack (e : StorageEngine) (value : ByteString) : Prop :=
  ∃ compressor compressed, e.compressor = some compressor ∧ compressor.compress value = .ok compressed ∧
    compressor.uncompress compressed = .ok value

/-- A lookup that finds the row of a put answers the value, where the compressor gives it back. -/
theorem exists_row_of_putRow {s s' : Store} {key : Key} {value : ByteString}
    (h : putRow s key value = .ok s') (hback : GivesBack s.engine value) :
    ∃ row, row.key = key ∧ s' = s.write row ∧ finishGet s.engine (visible row) = .ok (some value) := by
  obtain ⟨compressor, compressed, hcompressor, hcompress, huncompress⟩ := hback
  cases hhasher : s.engine.hasher with
  | none =>
    simp only [putRow, hcompressor, hcompress, hhasher] at h
    cases h
  | some hasher =>
    rw [putRow_eq key hcompressor hhasher hcompress, Except.ok.injEq] at h
    refine ⟨⟨key, compressed, .Put, hasher.hash compressed⟩, rfl, h.symm, ?_⟩
    simp [finishGet, visible, EntryType.Put, EntryType.Remove, hhasher, hcompressor, huncompress, Except.map]

theorem putRow_cases (s : Store) (key : Key) (value : ByteString) :
    (∃ fault, putRow s key value = .error fault) ∨
      ∃ row, row.key = key ∧ row.entryType = .Put ∧ putRow s key value = .ok (s.write row) := by
  cases hcompressor : s.engine.compressor with
  | none => exact Or.inl ⟨.nullPointer, by rw [putRow, hcompressor]⟩
  | some compressor =>
    cases hcompress : compressor.compress value with
    | error fault => exact Or.inl ⟨fault, by simp only [putRow, hcompressor, hcompress]⟩
    | ok compressed =>
      cases hhasher : s.engine.hasher with
      | none => exact Or.inl ⟨.nullPointer, by simp only [putRow, hcompressor, hcompress, hhasher]⟩
      | some hasher => exact Or.inr ⟨_, rfl, rfl, putRow_eq key hcompressor hhasher hcompress⟩

/-- A put fails without a trace, or writes one row, or writes one row and takes a snapshot. -/
theorem put_cases (P : Platform) (opened : SnapshotStreams) (s : Store) (key : Key) (value : ByteString) :
    (∃ fault, putRow s key value = .error fault ∧ put P opened s key value = (s, .error fault) ∧
      snapshotOf opened s key value = none) ∨
    ∃ row, row.key = key ∧ row.entryType = .Put ∧ putRow s key value = .ok (s.write row) ∧
      ((snapshotDue (s.write row) = false ∧ put P opened s key value = (s.write row, .ok ()) ∧
          snapshotOf opened s key value = none) ∨
        (snapshotDue (s.write row) = true ∧ put P opened s key value = makeSnapshot P opened (s.write row) ∧
          snapshotOf opened s key value = if opened.segment then
            some (s.engine.segmentId, (s.engine.memTable.writeRow row).createSortedStringsTable)
          else none)) := by
  unfold put snapshotOf
  rcases putRow_cases s key value with ⟨fault, hfault⟩ | ⟨row, hkey, htype, hrow⟩
  · refine Or.inl ⟨fault, hfault, ?_, ?_⟩
    · rw [hfault]
    · rw [hfault]
  · refine Or.inr ⟨row, hkey, htype, hrow, ?_⟩
    rw [hrow]
    dsimp only
    cases hdue : snapshotDue (s.write row) with
    | false => exact Or.inl ⟨rfl, rfl, rfl⟩
    | true =>
      refine Or.inr ⟨rfl, rfl, ?_⟩
      simp only [Bool.true_and]
      rfl

theorem memTable_makeSnapshot (P : Platform) (opened : SnapshotStreams) (s : Store) :
    (makeSnapshot P opened s).1.engine.memTable = s.engine.memTable.clear := by
  unfold makeSnapshot snapshotBloom snapshotIndex snapshotSegment
  dsimp only
  cases opened.bloom with
  | false => rfl
  | true =>
    cases opened.index with
    | false => rfl
    | true =>
      simp only [if_true]
      split <;> rfl

/-! ### The log of a session -/

/-- The log holds the rows, and where the memtable has a row of a logged key, it is the last one logged. -/
structure Logged (m : MemTable) (rows : List SSTableRow) : Prop where
  issued : ∃ wal, m.wal = some wal ∧ wal.issued = serializeAll rows
  latest : ∀ key row row', lastRow rows key = some row → m.findRow key = some row' → row' = row

namespace Logged

variable {m : MemTable} {rows : List SSTableRow}

theorem setWriteAheadLog (m : MemTable) : Logged m.setWriteAheadLog [] where
  issued := ⟨_, rfl, rfl⟩
  latest _ _ _ h _ := by simp at h

theorem writeRow (h : Logged m rows) (row : SSTableRow) : Logged (m.writeRow row) (rows ++ [row]) where
  issued := by
    obtain ⟨wal, hwal, hissued⟩ := h.issued
    refine ⟨wal.log row, ?_, ?_⟩
    · rw [MemTable.wal_writeRow, hwal, Option.map_some]
    · rw [WriteAheadLog.issued_log, hissued, serializeAll_append, serializeAll_cons, serializeAll_nil,
        List.append_nil]
  latest key last found hlast hfound := by
    rw [lastRow_append_singleton] at hlast
    rw [MemTable.findRow_writeRow] at hfound
    by_cases hkey : row.key = key
    · rw [if_pos hkey] at hlast hfound
      rw [← Option.some_inj, ← hlast, ← hfound]
    · rw [if_neg hkey] at hlast hfound
      exact h.latest key last found hlast hfound

theorem clear (h : Logged m rows) : Logged m.clear rows where
  issued := by
    obtain ⟨wal, hwal, hissued⟩ := h.issued
    refine ⟨wal.flushAndClear, ?_, ?_⟩
    · unfold MemTable.clear
      rw [hwal]
      rfl
    · rw [WriteAheadLog.issued_flushAndClear, hissued]
  latest _ _ _ _ hfound := by simp at hfound

end Logged

/-! ### Unwritten rows are in the log -/

/-- In an open world every row of the memtable that no segment has is in the log. The newest row of a key held is the
newest segment row of the key, or it is in the log and replaying the log gives the memtable's answer. -/
def UnwrittenRowsLogged (P : Platform) (w : World) : Prop :=
  ∀ e, w.engine = some e → ∃ wal logged, e.memTable.wal = some wal ∧ wal.issued = serializeAll logged ∧
    (∀ row ∈ e.memTable.rows, row ∈ w.written ∨ row ∈ logged) ∧
    ∀ key row, e.memTable.findRow key = some row → w.NewestSegmentRow row ∨
      row ∈ logged ∧ ∃ m, MemTable.restoreFromLog P {} (IStream.ofBytes wal.issued) = .ok m ∧
        m.get key = e.memTable.get key

/-- A log that is opened replays to written rows, and the newest row of a key is the newest segment row. -/
def ReplayedRowsWritten (P : Platform) (w : World) : Event → Prop
  | .open options => w.engine = none → ∀ m disk e, replayLog P w.disk.wal = .ok m →
      StorageEngine.open P {} options {} w.disk = (disk, .ok e) →
      (∀ row ∈ m.rows, row ∈ w.written) ∧ ∀ key row, m.findRow key = some row → w.NewestSegmentRow row
  | _ => True

/-- Each row of the memtable is written or logged, and the newest row of a key is the newest segment row or logged. -/
structure Covered (w : World) (m : MemTable) (logged : List SSTableRow) : Prop where
  rows : ∀ row ∈ m.rows, row ∈ w.written ∨ row ∈ logged
  newest : ∀ key row, m.findRow key = some row → w.NewestSegmentRow row ∨ row ∈ logged

theorem Covered.of_snapshots {w w' : World} {m : MemTable} {logged : List SSTableRow}
    (heq : w'.snapshots = w.snapshots) (h : Covered w m logged) : Covered w' m logged := by
  refine ⟨?_, ?_⟩
  · intro row hrow
    have hwritten : w'.written = w.written := by rw [World.written, World.written, heq]
    rw [hwritten]
    exact h.rows row hrow
  · intro key row hfind
    unfold World.NewestSegmentRow
    rw [heq]
    exact h.newest key row hfind

theorem Covered.writeRow {w : World} {m : MemTable} {logged : List SSTableRow} (h : Covered w m logged)
    (row : SSTableRow) : Covered w (m.writeRow row) (logged ++ [row]) where
  rows row' hrow' := by
    rcases MemTable.mem_rows_writeRow.mp hrow' with rfl | hrow'
    · exact Or.inr (by simp)
    · exact (h.rows row' hrow').imp_right (List.mem_append_left _)
  newest key row' hfind := by
    rw [MemTable.findRow_writeRow] at hfind
    split_ifs at hfind with hkey
    · rw [Option.some.injEq] at hfind
      exact Or.inr (by simp [hfind])
    · exact (h.newest key row' hfind).imp_right (List.mem_append_left _)

theorem Covered.clear (w : World) (m : MemTable) (logged : List SSTableRow) : Covered w m.clear logged where
  rows row hrow := by
    rw [MemTable.rows_clear] at hrow
    cases hrow
  newest key row hfind := by
    rw [MemTable.findRow_clear] at hfind
    cases hfind

/-- The log holds the rows of the session, and covers the memtable with the segments. -/
def LogInv (w : World) : Prop :=
  ∀ e, w.engine = some e → ∃ logged, Logged e.memTable logged ∧ Covered w e.memTable logged

theorem LogInv.step {P : Platform} {w : World} {event : Event} (h : LogInv w)
    (hcond : ReplayedRowsWritten P w event) : LogInv (step P w event) := by
  obtain ⟨disk, engine, snapshots⟩ := w
  cases engine with
  | none =>
    cases event with
    | «open» options =>
      intro e he
      unfold OmxDb.step at he ⊢
      dsimp only at he ⊢
      cases hopen : StorageEngine.open P {} options {} disk with
      | mk disk' result =>
        rw [hopen] at he
        cases result with
        | error fault => cases he
        | ok e' =>
          cases he
          rcases open_cases hopen with ⟨_, _, hresult, _⟩ | ⟨m, hlog, -, -, hengine⟩
          · cases hresult
          · obtain ⟨hrows, hnewest⟩ := hcond rfl m disk' e hlog hopen
            rw [(hengine e rfl).1]
            refine ⟨[], Logged.setWriteAheadLog m, ?_, ?_⟩
            · intro row hrow
              exact Or.inl (hrows row hrow)
            · intro key row hfind
              exact Or.inl (hnewest key row hfind)
    | _ => exact h
  | some e =>
    obtain ⟨logged, hlogged, hcovered⟩ := h e rfl
    have hwrite : ∀ (w : World) row, w.snapshots = snapshots →
        Covered w (e.memTable.writeRow row) (logged ++ [row]) :=
      fun w row heq => (hcovered.writeRow row).of_snapshots heq
    cases event with
    | «open» options => exact h
    | put opened key value =>
      intro e' he'
      cases he'
      rcases put_cases P opened ⟨disk, e⟩ key value with ⟨fault, -, hput, hsnapshot⟩ |
        ⟨row, -, -, -, ⟨-, hput, hsnapshot⟩ | ⟨-, hput, -⟩⟩
      · simp only [hput, OmxDb.step, hsnapshot]
        exact ⟨logged, hlogged, hcovered.of_snapshots rfl⟩
      · simp only [hput, OmxDb.step, hsnapshot]
        exact ⟨logged ++ [row], hlogged.writeRow row, hwrite _ row rfl⟩
      · rw [hput, memTable_makeSnapshot]
        exact ⟨logged ++ [row], (hlogged.writeRow row).clear, Covered.clear _ _ _⟩
    | remove key =>
      intro e' he'
      cases he'
      let row : SSTableRow := ⟨key, ByteString.empty, .Remove, (0, 0)⟩
      exact ⟨logged ++ [row], hlogged.writeRow row, hwrite _ row rfl⟩
    | close =>
      intro e' he'
      cases he'

theorem LogInv.unwrittenRowsLogged {P : Platform} {w : World} (h : LogInv w) : UnwrittenRowsLogged P w := by
  intro e he
  obtain ⟨logged, hlogged, hcovered⟩ := h e he
  obtain ⟨wal, hwal, hissued⟩ := hlogged.issued
  refine ⟨wal, logged, hwal, hissued, hcovered.rows, ?_⟩
  intro key row hfind
  refine (hcovered.newest key row hfind).imp_right fun hmem => ⟨hmem, ?_⟩
  -- the key is in the log, whose last row of it the memtable has
  have hlast : lastRow logged key = some row := by
    cases hlast : lastRow logged key with
    | none =>
      have hnone := List.find?_eq_none.mp hlast row (List.mem_reverse.mpr hmem)
      simp [MemTable.key_of_findRow hfind] at hnone
    | some last => rw [hlogged.latest key last row hlast hfind]
  refine ⟨_, by rw [hissued]; exact MemTable.restoreFromLog_rows P {} (List.ne_nil_of_mem hmem), ?_⟩
  rw [MemTable.get_eq, MemTable.get_eq, MemTable.findRow_insertAll, hlast, hfind]
  rfl

/-- A history keeps every unwritten row in its log, and every answer in its log or in the newest segment row, if and
only if every log it opens replays to such rows. -/
theorem unwrittenRowsLogged_iff (P : Platform) (events : List Event) :
    Runs.Meets (step P) (fun w event => UnwrittenRowsLogged P (step P w event)) {} events ↔
      Runs.Meets (step P) (ReplayedRowsWritten P) {} events := by
  constructor
  · apply Runs.Meets.mono
    intro w event h
    cases event with
    | «open» options =>
      intro hengine m disk e hlog hopen
      have hstep : step P w (.open options) = { w with disk := disk, engine := some e } := by
        unfold step
        rw [hengine]
        dsimp only
        rw [hopen]
      rw [hstep] at h
      obtain ⟨wal, logged, hwal, hissued, hrows, hnewest⟩ := h e rfl
      rcases open_cases hopen with ⟨_, _, hresult, _⟩ | ⟨m', hlog', -, -, hengine⟩
      · cases hresult
      · rw [hlog] at hlog'
        cases hlog'
        rw [(hengine e rfl).1] at hwal hrows hnewest
        cases hwal
        have hnil : logged = [] := serializeAll_eq_nil.mp hissued.symm
        subst hnil
        refine ⟨?_, ?_⟩
        · intro row hrow
          exact (hrows row hrow).resolve_right List.not_mem_nil
        · intro key row hfind
          exact (hnewest key row hfind).resolve_right fun h => List.not_mem_nil h.1
    | _ => trivial
  · intro hmeets
    refine Runs.Meets.of_inv LogInv (fun w event h hcond => h.step hcond) ?_ hmeets ?_
    · intro w event h hcond
      exact (h.step hcond).unwrittenRowsLogged
    · intro e he
      cases he

/-- One value is put, and the directory is closed and opened again. -/
def putAndRestart : List Event :=
  let options : Options := { plainOptions with maxMemTableSize := 1024 }
  [.open options, .put {} ⟨1⟩ (.single 97), .close, .open options]

/-- The replayed row is neither in a segment nor in the new log. -/
theorem not_unwrittenRowsLogged_restart :
    ¬ UnwrittenRowsLogged plainPlatform (Runs.run (step plainPlatform) {} putAndRestart) := by
  intro h
  obtain ⟨e, hengine, hrows, hissued⟩ :
      ∃ e, (Runs.run (step plainPlatform) {} putAndRestart).engine = some e ∧
        e.memTable.rows = [⟨⟨1⟩, .single 97, .Put, (0, 0)⟩] ∧
        e.memTable.wal = some WriteAheadLog.create := ⟨_, rfl, rfl, rfl⟩
  have hwritten : (Runs.run (step plainPlatform) {} putAndRestart).written = [] := rfl
  obtain ⟨wal, logged, hwal, hserialized, hcovered, -⟩ := h e hengine
  rw [hissued] at hwal
  cases hwal
  have hnil : logged = [] := serializeAll_eq_nil.mp hserialized.symm
  have hmem := hcovered ⟨⟨1⟩, .single 97, .Put, (0, 0)⟩ (by rw [hrows]; simp)
  rw [hwritten, hnil] at hmem
  simp at hmem

end OmxDb
