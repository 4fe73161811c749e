import OmxDb.History

/-!
# Histories that stand for segments

`SoundWorld P w segs` says that a world, open or closed, stands for the segments. Every step keeps it whose
snapshot, if it takes one, has a free 32-bit number and rows the hints can address (`SnapshotFresh`), and whose
open, if it is one, meets no index file without an entry (`IndexFilesHaveEntries`); the lemmas below say, for
each kind of step, which segments it leaves and what becomes of the memtable and the log.
-/

namespace OmxDb

open StorageEngine

/-! ### Sound worlds -/

inductive SoundWorld (P : Platform) : World → List Segment → Prop where
  | closed {disk : Disk} {snapshots : List (Nat × SSTable)} {segs : List Segment}
      (persisted : Persisted P disk segs)
      (options : disk.options = none ∨ ∃ opts, disk.options = some (saveOptions opts))
      (wal : disk.wal = none ∨ ∃ logged, disk.wal = some (serializeAll logged)) :
      SoundWorld P ⟨disk, none, snapshots⟩ segs
  | opened {disk : Disk} {e : StorageEngine} {snapshots : List (Nat × SSTable)} {segs : List Segment}
      {logged : List SSTableRow} (sound : Sound P ⟨disk, e⟩ segs) (log : Logged e.memTable logged) :
      SoundWorld P ⟨disk, some e, snapshots⟩ segs

theorem SoundWorld.sound {P : Platform} {disk : Disk} {e : StorageEngine} {snapshots : List (Nat × SSTable)}
    {segs : List Segment} (h : SoundWorld P ⟨disk, some e, snapshots⟩ segs) : Sound P ⟨disk, e⟩ segs := by
  cases h with
  | opened hsound _ => exact hsound

/-- No index file is a bare header. -/
def IndexFilesHaveEntries (disk : Disk) : Prop :=
  ∀ dir name bytes, disk.indexDir = some dir → dir.lookup name = some bytes → bytes.length ≠ 5

theorem indexFilesHaveEntries_of {disk : Disk} {dir : Dir} (hdir : disk.indexDir = some dir)
    (h : ∀ entry ∈ dir.entries, entry.2.length ≠ 5) : IndexFilesHaveEntries disk := by
  intro dir' name bytes hdir' hlookup
  cases hdir.symm.trans hdir'
  exact h ⟨name, bytes⟩ (AList.mem_lookup_iff.mp hlookup)

/-- A snapshot the put takes has a free 32-bit number and rows the hints can address. -/
def SnapshotFresh (s : Store) (key : Key) (value : ByteString) : Prop :=
  ∀ s', putRow s key value = .ok s' → snapshotDue s' = true →
    s'.engine.segmentId < 2 ^ 32 ∧ NumberFree s'.engine ∧
      RowsFit s'.engine.memTable.createSortedStringsTable.rows

theorem soundWorld_empty (P : Platform) : SoundWorld P {} [] :=
  .closed (persisted_empty P) (Or.inl rfl) (Or.inl rfl)

theorem rows_ne_nil {P : Platform} {disk : Disk} {segs : List Segment} (h : Persisted P disk segs)
    (hentries : IndexFilesHaveEntries disk) : ∀ seg ∈ segs, seg.rows ≠ [] := by
  intro seg hseg hnil
  have hfile := (h.indexes _ _).mpr ⟨seg.tableIndex, List.mem_map_of_mem hseg, rfl, rfl⟩
  cases hdir : disk.indexDir with
  | none => simp [hdir] at hfile
  | some dir =>
    rw [hdir, Option.getD_some] at hfile
    refine hentries dir _ _ hdir hfile ?_
    have hnone : ∀ key, seg.tableIndex.get key = none := by
      intro key
      apply Segment.get_tableIndex_eq_none
      unfold Segment.find
      rw [hnil, List.find?_nil]
    rw [SSTableIndex.dump, SSTableIndex.entries_eq_nil.mpr hnone]
    simp

theorem replayLog_serializeAll (P : Platform) (logged : List SSTableRow) :
    replayLog P (some (serializeAll logged)) = .ok (({} : MemTable).insertAll
      (if logged = [] then [MemTable.phantomRow P] else logged)) := by
  by_cases hnil : logged = []
  · rw [if_pos hnil, hnil]
    exact MemTable.restoreFromLog_empty P {}
  · rw [if_neg hnil]
    exact MemTable.restoreFromLog_rows P {} hnil

/-! ### Open and close -/

theorem open_persisted {P : Platform} {disk : Disk} {segs : List Segment} (h : Persisted P disk segs)
    (hoptions : disk.options = none ∨ ∃ opts, disk.options = some (saveOptions opts))
    (hwal : disk.wal = none ∨ ∃ logged, disk.wal = some (serializeAll logged))
    (hrows : ∀ seg ∈ segs, seg.rows ≠ []) (options : Options) :
    ∃ s m, «open» P {} options {} disk = (s.disk, .ok s.engine) ∧
      Sound P s (byFileName Segment.fileId segs) ∧ replayLog P disk.wal = .ok m ∧
      s.engine.memTable = m.setWriteAheadLog ∧
      ∀ opts, disk.options = some (saveOptions opts) → s.engine.opts = opts := by
  obtain ⟨m, hlog⟩ : ∃ m, replayLog P disk.wal = .ok m := by
    rcases hwal with hnone | ⟨logged, hsome⟩
    · rw [hnone]
      exact ⟨{}, rfl⟩
    · rw [hsome, replayLog_serializeAll]
      exact ⟨_, rfl⟩
  rcases hoptions with hnone | ⟨opts, hsome⟩
  · obtain ⟨s, hopen, hsound, hmemTable, -, -, -⟩ :=
      open_eq h hrows options (Or.inl ⟨hnone, rfl⟩) hlog
    refine ⟨s, m, hopen, hsound, hlog, hmemTable, ?_⟩
    intro opts hopts
    rw [hnone] at hopts
    cases hopts
  · obtain ⟨s, hopen, hsound, hmemTable, hopts, -, -⟩ :=
      open_eq h hrows options (Or.inr hsome) hlog
    refine ⟨s, m, hopen, hsound, hlog, hmemTable, ?_⟩
    intro opts' hopts'
    have hsave := Option.some_inj.mp (hsome.symm.trans hopts')
    have hload := loadOptions_saveOptions options opts
    rw [hsave, loadOptions_saveOptions] at hload
    rw [hopts, Except.ok.inj hload]

theorem Persisted.withWal {P : Platform} {disk : Disk} {segs : List Segment} (h : Persisted P disk segs)
    (bytes : Option (List UInt8)) : Persisted P { disk with wal := bytes } segs :=
  ⟨h.distinct, h.files, h.indexes, h.covers⟩

theorem close_eq {s : Store} {logged : List SSTableRow} (h : Logged s.engine.memTable logged) :
    close s = { s.disk with wal := some (serializeAll logged) } := by
  obtain ⟨wal, hwal, hissued⟩ := h.issued
  unfold close
  rw [hwal, ← hissued]

section step

variable {P : Platform} {disk : Disk} {snapshots : List (Nat × SSTable)}

theorem step_open {options : Options} {s : Store}
    (h : «open» P {} options {} disk = (s.disk, .ok s.engine)) :
    step P ⟨disk, none, snapshots⟩ (.open options) = ⟨s.disk, some s.engine, snapshots⟩ := by
  unfold step
  dsimp only
  rw [h]

theorem step_close {e : StorageEngine} {logged : List SSTableRow} (h : Logged e.memTable logged) :
    step P ⟨disk, some e, snapshots⟩ .close
      = ⟨{ disk with wal := some (serializeAll logged) }, none, snapshots⟩ := by
  unfold step
  dsimp only
  rw [close_eq (s := ⟨disk, e⟩) h]

theorem step_put {e : StorageEngine} {opened : SnapshotStreams} {key : Key} {value : ByteString} {s : Store}
    {result : Except Fault Unit} (h : put P opened ⟨disk, e⟩ key value = (s, result)) :
    step P ⟨disk, some e, snapshots⟩ (.put opened key value) = ⟨s.disk, some s.engine,
      (snapshotOf opened ⟨disk, e⟩ key value).toList ++ snapshots⟩ := by
  unfold step
  dsimp only
  rw [h]

end step

/-- Steps other than puts keep the segments, in an order of their own, and write none. -/
theorem SoundWorld.step_other {P : Platform} {w : World} {segs : List Segment} {event : Event}
    (h : SoundWorld P w segs) (hput : ∀ opened key value, event ≠ .put opened key value)
    (hrows : ∀ options, event = .open options → w.engine = none → ∀ seg ∈ segs, seg.rows ≠ []) :
    ∃ segs' : List Segment, segs'.Perm segs ∧ SoundWorld P (step P w event) segs' ∧
      (step P w event).snapshots = w.snapshots := by
  cases h with
  | @closed disk snapshots _ hpersisted hoptions hwal =>
    cases event with
    | «open» options =>
      obtain ⟨s, m, hopen, hsound, -, hmemTable, -⟩ :=
        open_persisted hpersisted hoptions hwal (hrows options rfl rfl) options
      rw [step_open hopen]
      exact ⟨byFileName Segment.fileId segs, byFileName_perm Segment.fileId segs,
        .opened hsound (hmemTable ▸ Logged.setWriteAheadLog m), rfl⟩
    | _ => exact ⟨segs, List.Perm.refl _, .closed hpersisted hoptions hwal, rfl⟩
  | @opened disk e snapshots _ logged hsound hlog =>
    cases event with
    | «open» options => exact ⟨segs, List.Perm.refl _, .opened hsound hlog, rfl⟩
    | put opened key value => exact absurd rfl (hput opened key value)
    | remove key =>
      exact ⟨segs, List.Perm.refl _, .opened (hsound.withMemTable _)
        (hlog.writeRow ⟨key, ByteString.empty, .Remove, (0, 0)⟩), rfl⟩
    | close =>
      rw [step_close hlog]
      exact ⟨segs, List.Perm.refl _, .closed (hsound.persisted.withWal _) (Or.inr ⟨_, hsound.options⟩)
        (Or.inr ⟨logged, rfl⟩), rfl⟩

/-! ### Puts -/

/-- A put whose files open fails without a trace, or writes one row, or writes one row and makes the memtable
the newest segment. -/
theorem Sound.put_cases {P : Platform} {s : Store} {segs : List Segment} (h : Sound P s segs) {key : Key}
    {value : ByteString} (hfresh : SnapshotFresh s key value) :
    (∃ fault, putRow s key value = .error fault ∧ put P {} s key value = (s, .error fault) ∧
      snapshotOf {} s key value = none) ∨
    ∃ row, row.key = key ∧ row.entryType = .Put ∧ putRow s key value = .ok (s.write row) ∧
      ((put P {} s key value = (s.write row, .ok ()) ∧ snapshotOf {} s key value = none) ∨
        ∃ fits s', snapshotDue (s.write row) = true ∧ put P {} s key value = (s', .ok ()) ∧
          Sound P s'
            (Segment.ofMemTable (s.engine.memTable.writeRow row) s.engine.segmentId fits :: segs) ∧
          s.engine.segmentId < 2 ^ 32 ∧
          s'.engine.memTable = (s.engine.memTable.writeRow row).clear ∧
          s'.engine.opts = s.engine.opts ∧
          snapshotOf {} s key value = some (s.engine.segmentId,
            (s.engine.memTable.writeRow row).createSortedStringsTable)) := by
  rcases OmxDb.put_cases P {} s key value with hfault | ⟨row, hkey, htype, hrow, hcase⟩
  · exact Or.inl hfault
  · refine Or.inr ⟨row, hkey, htype, hrow, ?_⟩
    rcases hcase with ⟨-, hput, hsnapshot⟩ | ⟨hdue, hput, hsnapshot⟩
    · exact Or.inl ⟨hput, hsnapshot⟩
    · obtain ⟨hword, hfree, fits⟩ := hfresh _ hrow hdue
      obtain ⟨s', hrun, hsound, hmemTable, hopts, -⟩ :=
        makeSnapshot_success (h.withMemTable (s.engine.memTable.writeRow row)) hword hfree fits
      exact Or.inr ⟨fits, s', hdue, hput.trans hrun, hsound, hword, hmemTable, hopts, hsnapshot⟩

end OmxDb
