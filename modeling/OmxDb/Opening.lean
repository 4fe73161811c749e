import OmxDb.Snapshot

/-!
# Opening a directory

`open` replays the log and recreates it before it looks at any other file. A directory whose files stand for
segments that all have rows opens to a store that stands for them, newest file name first, with the replayed
memtable (`open_eq`). Whatever goes wrong behind the replay finds the log already emptied: a failed open
keeps the log if and only if the replay itself threw or the log was worth no more than an empty one
(`keepsLog_iff`).
-/

namespace OmxDb

open LittleEndian StorageEngine

/-! ### Options -/

theorem loadOptions_saveOptions (options saved : Options) :
    loadOptions options (IStream.ofBytes (saveOptions saved)) = .ok saved := by
  unfold loadOptions saveOptions
  rw [readInto_ofBytes (n := 8) (by simp) (by simp)]
  simp only [bind, Except.bind]
  rw [readInto_ofBytes (n := 4) (by simp) (by simp)]
  simp only []
  rw [readInto_ofBytes (n := 1) rfl rfl]
  simp only []
  have hlast : readInto (IStream.ofBytes ([saved.hashType.code] ++ [])) [options.hashType.code] 1
      = .ok ([saved.hashType.code], IStream.ofBytes []) := readInto_ofBytes rfl rfl
  rw [List.append_nil] at hlast
  rw [hlast]
  simp [pure, Except.pure]

theorem loadOptions_isOk (options : Options) (s : IStream) : ∃ opts, loadOptions options s = .ok opts := by
  unfold loadOptions
  obtain ⟨⟨b1, s1⟩, h1⟩ := readInto_isOk s (encodeLE 8 options.maxMemTableSize.toNat) (n := 8) (by simp)
  obtain ⟨⟨b2, s2⟩, h2⟩ := readInto_isOk s1 (encodeLE 4 options.maxWalBufferSize.toNat) (n := 4)
    (by simp)
  obtain ⟨⟨b3, s3⟩, h3⟩ := readInto_isOk s2 [options.compressionType.code] (n := 1) (by simp)
  obtain ⟨⟨b4, s4⟩, h4⟩ := readInto_isOk s3 [options.hashType.code] (n := 1) (by simp)
  simp only [h1, h2, h3, h4, bind, Except.bind]
  exact ⟨_, rfl⟩

theorem openOptions_eq (options : Options) (disk : Disk) :
    ∃ opts file, openOptions options disk = ({ disk with options := some file }, .ok opts) := by
  unfold openOptions
  cases hfile : disk.options with
  | none => exact ⟨_, _, rfl⟩
  | some bytes =>
    obtain ⟨opts, hopts⟩ := loadOptions_isOk options (IStream.ofBytes bytes)
    refine ⟨opts, bytes, ?_⟩
    dsimp only
    rw [hopts, ← hfile]

/-! ### What an open does to the log -/

theorem openTables_cases (faults : OpenFaults) (e : StorageEngine) (disk : Disk) :
    (∃ segmentDir indexDir, (openTables faults e disk).1
      = { disk with segmentDir := segmentDir, indexDir := indexDir }) ∧
    ∀ e', (openTables faults e disk).2 = .ok e' → ∃ index, e' = { e with
      index := index
      bloomFilter := (disk.bloom.map e.bloomFilter.load).getD e.bloomFilter } := by
  unfold openTables
  cases createDirectory faults.segmentDir disk.segmentDir with
  | error fault => exact ⟨⟨_, _, rfl⟩, fun e' h => by cases h⟩
  | ok segmentDir =>
    dsimp only
    cases createDirectory faults.indexDir disk.indexDir with
    | error fault => exact ⟨⟨_, _, rfl⟩, fun e' h => by cases h⟩
    | ok indexDir =>
      dsimp only
      cases Index.load faults.indexFile indexDir {} with
      | error fault => exact ⟨⟨_, _, rfl⟩, fun e' h => by cases h⟩
      | ok index =>
        dsimp only
        cases disk.bloom with
        | none =>
          refine ⟨⟨_, _, rfl⟩, ?_⟩
          rintro e' ⟨⟩
          exact ⟨index, rfl⟩
        | some bytes =>
          dsimp only
          split_ifs
          · exact ⟨⟨_, _, rfl⟩, fun e' h => by cases h⟩
          · refine ⟨⟨_, _, rfl⟩, ?_⟩
            rintro e' ⟨⟩
            exact ⟨index, rfl⟩

/-- What an open with these options does: either the replay fails, or the log is empty from then on and an engine that
is returned has the replayed memtable with a new log; the filter file stays in any case. -/
theorem open_of_openOptions {P : Platform} {faults : OpenFaults} {options opts : Options} {disk disk' : Disk}
    {file : List UInt8} {result : Except Fault StorageEngine}
    (hopts : openOptions options disk = ({ disk with options := some file }, .ok opts))
    (h : «open» P faults options {} disk = (disk', result)) :
    disk'.options = some file ∧ disk'.bloom = disk.bloom ∧
      (∀ e, result = .ok e → e.memTableLimit = opts.maxMemTableSize.toNat ∧
        e.bloomFilter = filterOnDisk disk.bloom) ∧
      ((∃ fault, replayLog P disk.wal = .error fault ∧ result = .error fault ∧ disk'.wal = disk.wal) ∨
        ∃ m, replayLog P disk.wal = .ok m ∧ disk'.wal = some [] ∧
          ∀ e, result = .ok e → e.memTable = m.setWriteAheadLog) := by
  unfold «open» at h
  rw [hopts] at h
  dsimp only at h
  cases hlog : replayLog P disk.wal with
  | error fault =>
    rw [hlog] at h
    cases h
    exact ⟨rfl, rfl, (fun e he => by cases he), Or.inl ⟨fault, rfl, rfl, rfl⟩⟩
  | ok m =>
    rw [hlog] at h
    dsimp only at h
    obtain ⟨⟨segmentDir, indexDir, hdisk⟩, hengine⟩ := openTables_cases faults
      { ({} : StorageEngine) with
        opts := opts
        compressor := some (createCompressor P opts.compressionType)
        hasher := createHasher P opts.hashType
        memTableLimit := opts.maxMemTableSize.toNat
        memTable := m.setWriteAheadLog }
      { disk with options := some file, wal := some [] }
    rw [h] at hdisk hengine
    dsimp only at hdisk
    refine ⟨by rw [hdisk], by rw [hdisk], ?_, Or.inr ⟨m, rfl, by rw [hdisk], ?_⟩⟩
    · intro e he
      obtain ⟨index, rfl⟩ := hengine e he
      refine ⟨rfl, ?_⟩
      dsimp only
      cases disk.bloom <;> rfl
    · intro e he
      obtain ⟨index, rfl⟩ := hengine e he
      rfl

/-- Either the replay fails, and no more than the options file was written, or the log is empty from then on and the
filter file stays; an engine that is returned has the replayed memtable with a new log, and the filter of the file. -/
theorem open_cases {P : Platform} {faults : OpenFaults} {options : Options} {disk disk' : Disk}
    {result : Except Fault StorageEngine} (h : «open» P faults options {} disk = (disk', result)) :
    (∃ fault, replayLog P disk.wal = .error fault ∧ result = .error fault ∧ disk'.wal = disk.wal ∧
      disk'.bloom = disk.bloom) ∨
      ∃ m, replayLog P disk.wal = .ok m ∧ disk'.wal = some [] ∧ disk'.bloom = disk.bloom ∧
        ∀ e, result = .ok e → e.memTable = m.setWriteAheadLog ∧ e.bloomFilter = filterOnDisk disk.bloom := by
  obtain ⟨opts, file, hopts⟩ := openOptions_eq options disk
  obtain ⟨-, hbloom, hengine, hlog⟩ := open_of_openOptions hopts h
  rcases hlog with ⟨fault, hlog, hresult, hwal⟩ | ⟨m, hlog, hwal, hmem⟩
  · exact Or.inl ⟨fault, hlog, hresult, hwal, hbloom⟩
  · exact Or.inr ⟨m, hlog, hwal, hbloom, fun e he => ⟨hmem e he, (hengine e he).2⟩⟩

/-! ### Failed opens -/

/-- The log replays to the rows it replayed to before, and a later open that returns has them. -/
def KeepsLog (P : Platform) (disk disk' : Disk) : Prop :=
  replayLog P disk'.wal = replayLog P disk.wal ∧
    ∀ options disk'' e, «open» P {} options {} disk' = (disk'', .ok e) →
      ∃ m, replayLog P disk.wal = .ok m ∧ e.memTable = m.setWriteAheadLog

/-- A failed open keeps the log if and only if the replay threw or the log replays like an empty one. -/
theorem keepsLog_iff (P : Platform) (faults : OpenFaults) (options : Options) (disk disk' : Disk)
    (fault : Fault) (h : «open» P faults options {} disk = (disk', .error fault)) :
    KeepsLog P disk disk' ↔
      (∃ fault, replayLog P disk.wal = .error fault) ∨ replayLog P disk.wal = replayLog P (some []) := by
  have hlater : replayLog P disk'.wal = replayLog P disk.wal → KeepsLog P disk disk' := by
    intro heq
    refine ⟨heq, ?_⟩
    intro options' disk'' e hopen
    rcases open_cases hopen with ⟨_, _, hresult, _⟩ | ⟨m, hlog, _, _, hengine⟩
    · cases hresult
    · exact ⟨m, heq ▸ hlog, (hengine e rfl).1⟩
  rcases open_cases h with ⟨fault', hlog, -, hwal, -⟩ | ⟨m, hlog, hwal, -⟩
  · constructor
    · intro _
      exact Or.inl ⟨fault', hlog⟩
    · intro _
      exact hlater (by rw [hwal])
  · constructor
    · rintro ⟨heq, -⟩
      rw [hwal] at heq
      exact Or.inr heq.symm
    · rintro (⟨fault', hlog'⟩ | heq)
      · rw [hlog] at hlog'
        cases hlog'
      · exact hlater (by rw [hwal, heq])

/-- What a session leaves that opens an empty directory and puts one value. -/
def oneSession : Disk :=
  match «open» plainPlatform {} plainOptions {} {} with
  | (disk, .error _) => disk
  | (disk, .ok e) => close (put plainPlatform {} ⟨disk, e⟩ ⟨1⟩ (.single 97)).1

theorem wal_oneSession :
    oneSession.wal = some (serializeAll [⟨⟨1⟩, .single 97, .Put, (0, 0)⟩]) := rfl

theorem open_oneSession :
    ∃ disk', «open» plainPlatform { indexFile := fun _ => true } plainOptions {} oneSession
      = (disk', .error (.runtimeError "bad stream: index_0.bin")) :=
  ⟨_, rfl⟩

/-- Where the index file of the session cannot be opened, the open throws and the logged row is gone. -/
theorem not_keepsLog_oneSession :
    ∃ disk', «open» plainPlatform { indexFile := fun _ => true } plainOptions {} oneSession
        = (disk', .error (.runtimeError "bad stream: index_0.bin")) ∧
      ¬ KeepsLog plainPlatform oneSession disk' := by
  obtain ⟨disk', hopen⟩ := open_oneSession
  refine ⟨disk', hopen, ?_⟩
  rintro ⟨hlog, -⟩
  have hbefore : replayLog plainPlatform oneSession.wal
      = .ok (({} : MemTable).insertAll [⟨⟨1⟩, .single 97, .Put, (0, 0)⟩]) := by
    rw [wal_oneSession]
    exact MemTable.restoreFromLog_rows plainPlatform {} (List.cons_ne_nil _ _)
  rcases open_cases hopen with ⟨fault, hfault, -, -⟩ | ⟨m, -, hwal, -⟩
  · rw [hbefore] at hfault
    cases hfault
  · have hafter : replayLog plainPlatform (some [])
        = .ok (({} : MemTable).insertRow (MemTable.phantomRow plainPlatform)) :=
      MemTable.restoreFromLog_empty plainPlatform {}
    rw [hwal, hbefore, hafter] at hlog
    have hfind := congrArg (fun m : MemTable => m.findRow ⟨1⟩) (Except.ok.inj hlog)
    exact absurd hfind (by decide)

theorem keepsLog_oneSession_iff :
    ∃ disk', «open» plainPlatform { indexFile := fun _ => true } plainOptions {} oneSession
        = (disk', .error (.runtimeError "bad stream: index_0.bin")) ∧
      (KeepsLog plainPlatform oneSession disk' ↔
        (∃ fault, replayLog plainPlatform oneSession.wal = .error fault) ∨
          replayLog plainPlatform oneSession.wal = replayLog plainPlatform (some [])) := by
  obtain ⟨disk', hopen⟩ := open_oneSession
  exact ⟨disk', hopen, keepsLog_iff plainPlatform _ plainOptions oneSession disk' _ hopen⟩

/-! ### Successful opens -/

theorem createDirectory_eq (dir : Option Dir) : createDirectory false dir = .ok (dir.getD ∅) := by
  cases dir <;> rfl

theorem Segment.exists_get_tableIndex {seg : Segment} (h : seg.rows ≠ []) :
    ∃ key, seg.tableIndex.get key ≠ none := by
  obtain ⟨row, rows, hrows⟩ := List.exists_cons_of_ne_nil h
  refine ⟨row.key, Segment.get_tableIndex_ne_none.mpr ?_⟩
  unfold Segment.find
  rw [hrows, List.find?_cons_of_pos (by simp)]
  exact Option.some_ne_none _

/-- The directory after an open that returned. -/
def openedDisk (opts : Options) (disk : Disk) : Disk :=
  { disk with
    options := some (saveOptions opts)
    wal := some []
    segmentDir := some (disk.segmentDir.getD ∅)
    indexDir := some (disk.indexDir.getD ∅) }

/-- The engine such an open returns. -/
def openedEngine (P : Platform) (opts : Options) (m : MemTable) (index : Index) (disk : Disk) :
    StorageEngine where
  opts := opts
  compressor := some (createCompressor P opts.compressionType)
  hasher := createHasher P opts.hashType
  memTableLimit := opts.maxMemTableSize.toNat
  memTable := m.setWriteAheadLog
  index := index
  bloomFilter := filterOnDisk disk.bloom

/-- The options an open works with: those saved, or the ones passed to the first open, which saves them. -/
theorem openOptions_saved {options : Options} {disk : Disk} {opts : Options}
    (hopts : disk.options = none ∧ opts = options ∨ disk.options = some (saveOptions opts)) :
    openOptions options disk = ({ disk with options := some (saveOptions opts) }, .ok opts) := by
  unfold openOptions
  rcases hopts with ⟨hnone, rfl⟩ | hsome
  · rw [hnone]
  · rw [hsome]
    dsimp only
    rw [loadOptions_saveOptions, ← hsome]

theorem open_of_load (P : Platform) (options : Options) {disk : Disk} {opts : Options} {m : MemTable} {index : Index}
    (hopts : disk.options = none ∧ opts = options ∨ disk.options = some (saveOptions opts))
    (hlog : replayLog P disk.wal = .ok m)
    (hload : Index.load (fun _ => false) (disk.indexDir.getD ∅) {} = .ok index) :
    «open» P {} options {} disk = (openedDisk opts disk, .ok (openedEngine P opts m index disk)) := by
  unfold «open»
  rw [openOptions_saved hopts]
  dsimp only
  rw [hlog]
  dsimp only
  unfold openTables openedDisk openedEngine
  simp only [createDirectory_eq, hload]
  cases disk.bloom <;> rfl

theorem Persisted.load_index {P : Platform} {disk : Disk} {segs : List Segment} (h : Persisted P disk segs)
    (hrows : ∀ seg ∈ segs, seg.rows ≠ []) :
    ∃ index, Index.load (fun _ => false) (disk.indexDir.getD ∅) {} = .ok index ∧
      List.Forall₂ (fun t seg => ∀ key, TableOf key t seg) index.tableIndexes
        (byFileName Segment.fileId segs) := by
  obtain ⟨index, hload, hsame⟩ := load_indexFiles h.indexes h.ids_pairwise (by
    intro t ht
    obtain ⟨seg, hseg, rfl⟩ := List.mem_map.mp ht
    exact Segment.exists_get_tableIndex (hrows seg hseg))
  rw [byFileName_map Segment.fileId Segment.tableIndex SSTableIndex.fileId segs Segment.fileId_tableIndex,
    List.forall₂_map_right_iff] at hsame
  refine ⟨index, hload, ?_⟩
  exact hsame.imp fun t seg ht key => ⟨by rw [ht.1, Segment.fileId_tableIndex], ht.2 key⟩

/-- A directory that stands for segments with rows opens to a store that stands for them, in the order of
file names, whatever options are passed once options were saved. -/
theorem open_eq {P : Platform} {disk : Disk} {segs : List Segment} (h : Persisted P disk segs)
    (hrows : ∀ seg ∈ segs, seg.rows ≠ []) (options : Options) {opts : Options}
    (hopts : disk.options = none ∧ opts = options ∨ disk.options = some (saveOptions opts)) {m : MemTable}
    (hlog : replayLog P disk.wal = .ok m) :
    ∃ s : Store, «open» P {} options {} disk = (s.disk, .ok s.engine) ∧
      Sound P s (byFileName Segment.fileId segs) ∧ s.engine.memTable = m.setWriteAheadLog ∧
      s.engine.opts = opts ∧ s.engine.segmentId = 0 ∧ s.disk.wal = some [] := by
  obtain ⟨index, hload, htables⟩ := h.load_index hrows
  have hpersisted := h.perm (byFileName_perm Segment.fileId segs)
  have hfiles : ∀ seg ∈ byFileName Segment.fileId segs,
      (disk.segmentDir.getD ∅).lookup (segmentFile seg.fileId.toNat) = some seg.bytes := by
    intro seg hseg
    obtain ⟨dir, hdir, hlookup⟩ := Option.bind_eq_some_iff.mp (hpersisted.files seg hseg)
    rw [hdir]
    exact hlookup
  refine ⟨⟨openedDisk opts disk, openedEngine P opts m index disk⟩, open_of_load P options hopts hlog hload, ?_, rfl,
    rfl, rfl, rfl⟩
  exact {
    index := htables
    files := hfiles
    covers := hpersisted.covers
    persisted := ⟨hpersisted.distinct, hfiles, hpersisted.indexes, hpersisted.covers⟩
    segmentDir := rfl
    indexDir := rfl
    options := rfl
    compressor := rfl
    hasher := rfl }

end OmxDb
