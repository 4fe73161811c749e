import OmxDb.Agreement
import OmxDb.FilterHistory
import OmxDb.Scanning

/-!
# One object, opened again and again

A server that is started again opens the `Database` it has, and so can any caller. `open` replaces the memtable, whose
log is flushed on the way, and the index, but leaves the segment counter alone. Where a new object on an old directory
counts segments from zero and writes over those that are there, an object that is opened again goes on counting: on a
directory that was empty at the first open every open returns, no segment file is written twice, and `get` answers what
reading whole segments answers (`one_object_keeps_segments`).
-/

namespace OmxDb

open StorageEngine

/-! ### Opening again -/

/-- `open` on any object. The memtable it had is destroyed before the log is replayed, and with it the log stream, which
writes out its buffer. -/
def reopen (P : Platform) (options : Options) (s : Store) : Disk × Except Fault StorageEngine :=
  «open» P {} options s.engine (close s)

/-- The filter is that of its file, which is a dump. -/
structure FilterSaved (s : Store) : Prop where
  loaded : s.engine.bloomFilter = filterOnDisk s.disk.bloom
  dumped : ∀ bytes, s.disk.bloom = some bytes → ∃ b : BloomFilter kFilterSize kNumHashes, bytes = b.dump

theorem FilterSaved.load {s : Store} (h : FilterSaved s) :
    (s.disk.bloom.map s.engine.bloomFilter.load).getD s.engine.bloomFilter = filterOnDisk s.disk.bloom := by
  cases hbloom : s.disk.bloom with
  | none =>
    rw [Option.map_none, Option.getD_none]
    exact h.loaded.trans (congrArg filterOnDisk hbloom)
  | some bytes =>
    obtain ⟨b, hdump⟩ := h.dumped bytes hbloom
    rw [hdump, Option.map_some, Option.getD_some, filterOnDisk_dump, BloomFilter.load_dump]

theorem openTables_again {faults : OpenFaults} {e e' e₀ : StorageEngine} {disk disk' : Disk}
    (h : openTables faults e disk = (disk', .ok e₀))
    (hsame : e' = { e with index := e'.index, segmentId := e'.segmentId, bloomFilter := e'.bloomFilter }) :
    openTables faults e' disk = (disk', .ok { e₀ with
      segmentId := e'.segmentId
      bloomFilter := (disk.bloom.map e'.bloomFilter.load).getD e'.bloomFilter }) := by
  unfold openTables at h ⊢
  cases hsegment : createDirectory faults.segmentDir disk.segmentDir with
  | error fault => simp [hsegment] at h
  | ok segmentDir =>
    rw [hsegment] at h
    dsimp only at h ⊢
    cases hindex : createDirectory faults.indexDir disk.indexDir with
    | error fault => simp [hindex] at h
    | ok indexDir =>
      rw [hindex] at h
      dsimp only at h ⊢
      cases hload : Index.load faults.indexFile indexDir {} with
      | error fault => simp [hload] at h
      | ok index =>
        rw [hload] at h
        dsimp only at h ⊢
        cases hbloom : disk.bloom with
        | none =>
          rw [hbloom] at h
          cases h
          rw [hsame]
          rfl
        | some bytes =>
          rw [hbloom] at h
          dsimp only at h ⊢
          cases hfault : faults.bloom with
          | true => simp [hfault] at h
          | false =>
            rw [hfault] at h
            cases h
            rw [hsame]
            rfl

/-- An object that is opened again is what a new one would be, but for the segment counter. -/
theorem reopen_eq {P : Platform} {options : Options} {s s₀ : Store} (hfilter : FilterSaved s)
    (h : «open» P {} options {} (close s) = (s₀.disk, .ok s₀.engine)) :
    reopen P options s = (s₀.disk, .ok { s₀.engine with segmentId := s.engine.segmentId }) := by
  obtain ⟨disk₀, e₀⟩ := s₀
  obtain ⟨opts, file, hopts⟩ := openOptions_eq options (close s)
  have hloaded := (bloom_open h).2 e₀ rfl
  unfold reopen
  unfold «open» at h ⊢
  rw [hopts] at h ⊢
  dsimp only at h ⊢
  cases hlog : replayLog P (close s).wal with
  | error fault =>
    rw [hlog] at h
    cases h
  | ok m =>
    rw [hlog] at h
    dsimp only at h ⊢
    rw [openTables_again h rfl]
    have hbloom := hfilter.load
    rw [← bloom_close s, ← hloaded] at hbloom
    dsimp only
    rw [hbloom]

/-! ### The object -/

inductive ObjectCall where
  | open (options : Options)
  | put (opened : SnapshotStreams) (key : Key) (value : ByteString)
  | remove (key : Key)

/-- An object and its directory. What an `open` leaves that throws is not followed further. -/
structure Object where
  store : Store := ⟨{}, {}⟩
  opened : Bool := false
  failed : Bool := false
  snapshots : List (Nat × SSTable) := []

/-- Writes are for objects that were opened. -/
def Object.step (P : Platform) (o : Object) (call : ObjectCall) : Object :=
  match o.failed, call with
  | true, _ => o
  | false, .open options =>
    match reopen P options o.store with
    | (disk, .error _) => { o with store := ⟨disk, o.store.engine⟩, failed := true }
    | (disk, .ok e) => { o with store := ⟨disk, e⟩, opened := true }
  | false, .put opened key value =>
    if o.opened then
      { o with
        store := (put P opened o.store key value).1
        snapshots := (snapshotOf opened o.store key value).toList ++ o.snapshots }
    else o
  | false, .remove key => if o.opened then { o with store := remove o.store key } else o

/-- A put is of an ordinary key, its files open, and a snapshot it takes has a number below `2 ^ 32` and less than
`2 ^ 32` bytes. -/
def PutOrdinary (o : Object) : ObjectCall → Prop
  | .put opened key value => opened = {} ∧ key.id ≠ npos ∧ ∀ s, putRow o.store key value = .ok s →
      snapshotDue s = true → s.engine.segmentId < 2 ^ 32 ∧ s.engine.memTable.dump.length < 2 ^ 32
  | _ => True

/-- The store stands for the recorded snapshots, whose numbers are all behind the counter. -/
structure Standing (P : Platform) (s : Store) (segs : List Segment) (snapshots : List (Nat × SSTable)) : Prop where
  sound : Sound P s segs
  logged : ∃ rows, Logged s.engine.memTable rows
  filter : FilterSaved s
  below : ∀ seg ∈ segs, seg.fileId.toNat < s.engine.segmentId
  rows : ∀ seg ∈ segs, seg.rows ≠ []
  recorded : Recorded segs snapshots
  numbered : (snapshots.map Prod.fst).Nodup

/-- Nothing has happened yet, or the object is open and stands for its snapshots. -/
inductive ObjectInv (P : Platform) : Object → Prop where
  | fresh : ObjectInv P {}
  | opened {s : Store} {segs : List Segment} {snapshots : List (Nat × SSTable)} (h : Standing P s segs snapshots) :
      ObjectInv P { store := s, opened := true, snapshots := snapshots }

section steps

variable {P : Platform} {s : Store} {segs : List Segment} {snapshots : List (Nat × SSTable)}

theorem reopen_standing (hpersisted : Persisted P (close s) segs)
    (hoptions : (close s).options = none ∨ ∃ opts, (close s).options = some (saveOptions opts))
    (hwal : (close s).wal = none ∨ ∃ logged, (close s).wal = some (serializeAll logged))
    (hrows : ∀ seg ∈ segs, seg.rows ≠ []) (hfilter : FilterSaved s)
    (hbelow : ∀ seg ∈ segs, seg.fileId.toNat < s.engine.segmentId) (hrecorded : Recorded segs snapshots)
    (hnumbered : (snapshots.map Prod.fst).Nodup) (options : Options) :
    ∃ s', reopen P options s = (s'.disk, .ok s'.engine) ∧
      Standing P s' (byFileName Segment.fileId segs) snapshots := by
  have hperm := byFileName_perm Segment.fileId segs
  obtain ⟨s₀, m, hopen, hsound, -, hmemTable, -⟩ := open_persisted hpersisted hoptions hwal hrows options
  obtain ⟨hbloom, hloaded⟩ := bloom_open hopen
  rw [bloom_close] at hbloom hloaded
  have hreopen : OmxDb.reopen P options s = (s₀.disk, .ok { s₀.engine with segmentId := s.engine.segmentId }) :=
    reopen_eq hfilter hopen
  refine ⟨⟨s₀.disk, { s₀.engine with segmentId := s.engine.segmentId }⟩, hreopen, ?_⟩
  exact {
    sound := {
      index := hsound.index
      files := hsound.files
      covers := hsound.covers
      persisted := hsound.persisted
      segmentDir := hsound.segmentDir
      indexDir := hsound.indexDir
      options := hsound.options
      compressor := hsound.compressor
      hasher := hsound.hasher }
    logged := ⟨[], show Logged s₀.engine.memTable [] from hmemTable ▸ Logged.setWriteAheadLog m⟩
    filter := ⟨(hloaded _ rfl).trans (congrArg filterOnDisk hbloom.symm), fun bytes hbytes =>
      hfilter.dumped bytes (hbloom.symm.trans hbytes)⟩
    below := fun seg hseg => hbelow seg (hperm.mem_iff.mp hseg)
    rows := fun seg hseg => hrows seg (hperm.mem_iff.mp hseg)
    recorded := hrecorded.perm hperm
    numbered := hnumbered }

theorem reopen_empty (P : Platform) (options : Options) :
    ∃ s', OmxDb.reopen P options ⟨{}, {}⟩ = (s'.disk, .ok s'.engine) ∧ Standing P s' [] [] := by
  have hrecorded : Recorded [] [] := fun snapshot => by simp
  have hfilter : FilterSaved ⟨{}, {}⟩ := ⟨rfl, fun bytes hbytes => by cases hbytes⟩
  exact reopen_standing (persisted_empty P) (Or.inl rfl) (Or.inl rfl)
    (fun seg hseg => absurd hseg List.not_mem_nil) hfilter (fun seg hseg => absurd hseg List.not_mem_nil) hrecorded
    List.nodup_nil options

theorem Standing.reopen (h : Standing P s segs snapshots) (options : Options) :
    ∃ s', OmxDb.reopen P options s = (s'.disk, .ok s'.engine) ∧
      Standing P s' (byFileName Segment.fileId segs) snapshots := by
  obtain ⟨logged, hlogged⟩ := h.logged
  have hclose := close_eq hlogged
  apply reopen_standing _ _ _ h.rows h.filter h.below h.recorded h.numbered
  · rw [hclose]
    exact h.sound.persisted.withWal _
  · rw [hclose]
    exact Or.inr ⟨_, h.sound.options⟩
  · rw [hclose]
    exact Or.inr ⟨logged, rfl⟩

theorem Standing.write (h : Standing P s segs snapshots) (row : SSTableRow) :
    Standing P (s.write row) segs snapshots where
  sound := h.sound.write row
  logged := by
    obtain ⟨rows, hlogged⟩ := h.logged
    exact ⟨rows ++ [row], hlogged.writeRow row⟩
  filter := ⟨h.filter.loaded, h.filter.dumped⟩
  below := h.below
  rows := h.rows
  recorded := h.recorded
  numbered := h.numbered

theorem Standing.snapshot (h : Standing P s segs snapshots) {row : SSTableRow} (hkey : row.key.id ≠ npos)
    (hword : s.engine.segmentId < 2 ^ 32) (hsmall : (s.engine.memTable.writeRow row).dump.length < 2 ^ 32) :
    ∃ s' segs', makeSnapshot P {} (s.write row) = (s', .ok ()) ∧ Standing P s' segs'
      ((s.engine.segmentId, (s.engine.memTable.writeRow row).createSortedStringsTable) :: snapshots) := by
  have hsound := h.sound.write row
  have hfree : NumberFree (s.write row).engine :=
    hsound.numberFree_iff.mpr fun seg hseg => Nat.ne_of_lt (h.below seg hseg)
  rw [MemTable.dump_eq] at hsmall
  have fits : RowsFit (s.write row).engine.memTable.createSortedStringsTable.rows := rowsFit_of_length hsmall
  obtain ⟨s', hrun, hsound', hmemTable, -, hsegmentId⟩ := makeSnapshot_success hsound hword hfree fits
  have hcounter : s'.engine.segmentId = s.engine.segmentId + 1 := hsegmentId
  have hid : (UInt32.ofNat s.engine.segmentId).toNat = s.engine.segmentId := UInt32.toNat_ofNat_of_lt hword
  obtain ⟨rows, hlogged⟩ := (h.write row).logged
  have hstream : ({} : SnapshotStreams).bloom = true := rfl
  obtain ⟨hloaded, hdump⟩ := bloom_makeSnapshot P hstream (s.write row)
  rw [hrun] at hloaded hdump
  refine ⟨s', Segment.ofMemTable (s.engine.memTable.writeRow row) s.engine.segmentId fits :: segs, hrun, ?_⟩
  refine ⟨hsound', ⟨rows, hmemTable ▸ hlogged.clear⟩, ⟨?_, ?_⟩, ?_, ?_, ?_, ?_⟩
  · rw [hloaded, hdump, filterOnDisk_dump]
  · intro bytes hbytes
    exact ⟨_, (Option.some.inj (hdump.symm.trans hbytes)).symm⟩
  · rw [List.forall_mem_cons, hcounter]
    refine ⟨?_, fun seg hseg => Nat.lt_succ_of_lt (h.below seg hseg)⟩
    calc (UInt32.ofNat s.engine.segmentId).toNat
        = s.engine.segmentId := hid
      _ < s.engine.segmentId + 1 := Nat.lt_succ_self _
  · rw [List.forall_mem_cons]
    exact ⟨rows_ofMemTable_ne_nil hkey, h.rows⟩
  · intro snapshot
    have hold := h.recorded snapshot
    simp only [List.mem_cons, exists_eq_or_imp, Segment.ofMemTable, hid] at hold ⊢
    rw [hold]
  · rw [List.map_cons, List.nodup_cons]
    refine ⟨fun hmem => ?_, h.numbered⟩
    obtain ⟨snapshot, hsnapshot, hnumber⟩ := List.mem_map.mp hmem
    obtain ⟨seg, hseg, rfl⟩ := (h.recorded snapshot).mp hsnapshot
    exact absurd hnumber (Nat.ne_of_lt (h.below seg hseg))

theorem ObjectInv.step {o : Object} (h : ObjectInv P o) {call : ObjectCall} (hordinary : PutOrdinary o call) :
    ObjectInv P (o.step P call) := by
  cases h with
  | fresh =>
    cases call with
    | «open» options =>
      obtain ⟨s', hopen, hstanding⟩ := reopen_empty P options
      simp only [Object.step, hopen]
      exact .opened hstanding
    | put opened key value => exact .fresh
    | remove key => exact .fresh
  | @opened s segs snapshots hstanding =>
    cases call with
    | «open» options =>
      obtain ⟨s', hopen, hstanding'⟩ := hstanding.reopen options
      simp only [Object.step, hopen]
      exact .opened hstanding'
    | remove key => exact .opened (hstanding.write ⟨key, ByteString.empty, .Remove, (0, 0)⟩)
    | put opened key value =>
      obtain ⟨rfl, hkey, hsnapshot⟩ := hordinary
      simp only [Object.step, if_true]
      rcases put_cases P {} s key value with
        ⟨fault, -, hput, hof⟩ | ⟨row, hrowKey, -, hrow, ⟨-, hput, hof⟩ | ⟨hdue, hput, hof⟩⟩
      · rw [hput, hof]
        exact .opened hstanding
      · rw [hput, hof]
        exact .opened (hstanding.write row)
      · obtain ⟨hword, hsmall⟩ := hsnapshot _ hrow hdue
        obtain ⟨s', segs', hrun, hstanding'⟩ := hstanding.snapshot (by rw [hrowKey]; exact hkey) hword hsmall
        rw [hput, hrun, hof]
        exact .opened hstanding'

end steps

/-- Whatever the calls on one object and however often it is opened, on a directory that was empty at the first open:
every open returns, every segment file has the rows its snapshot wrote, no two snapshots have one number, and `get`
on the open object answers what reading whole segment files from the most recently registered one on answers. The puts
are of ordinary keys, their files open, and their snapshots are small and numbered below `2 ^ 32`. -/
theorem one_object_keeps_segments (P : Platform) (calls : List ObjectCall)
    (hordinary : Runs.Meets (Object.step P) PutOrdinary {} calls) :
    let o := Runs.run (Object.step P) {} calls
    o.failed = false ∧
      (∀ snapshot ∈ o.snapshots,
        o.store.disk.segment (segmentFile snapshot.1) = some (serializeAll snapshot.2.rows)) ∧
      (o.snapshots.map Prod.fst).Nodup ∧
      (o.opened = true → ∀ key, StorageEngine.get P o.store key = getByScan P o.store key) := by
  intro o
  have hinv : ObjectInv P o :=
    Runs.run_inv (ObjectInv P) (fun o call h hcond => h.step hcond) hordinary ObjectInv.fresh
  generalize o = reached at hinv
  cases hinv with
  | fresh => exact ⟨rfl, fun snapshot h => absurd h List.not_mem_nil, List.nodup_nil, fun h => by cases h⟩
  | opened h =>
    refine ⟨rfl, ?_, h.numbered, fun _ key => h.sound.get_eq_scan h.rows key⟩
    intro snapshot hsnapshot
    obtain ⟨seg, hseg, rfl⟩ := (h.recorded snapshot).mp hsnapshot
    exact h.sound.files seg hseg

/-- An object that is opened again between two snapshots. -/
def openedTwice : List ObjectCall :=
  [.open plainOptions, .put {} ⟨1⟩ (.single 97), .open plainOptions,
    .put {} ⟨2⟩ (.single 98)]

/-- Both snapshots have their file and both keys are read back, where a second object would have lost the first. -/
theorem one_object_keeps_segments_openedTwice :
    let o := Runs.run (Object.step plainPlatform) {} openedTwice
    o.failed = false ∧ o.snapshots.map Prod.fst = [1, 0] ∧
      (∀ snapshot ∈ o.snapshots,
        o.store.disk.segment (segmentFile snapshot.1) = some (serializeAll snapshot.2.rows)) ∧
      getByScan plainPlatform o.store ⟨1⟩ = .ok (some (.single 97)) := by
  intro o
  have hordinary : Runs.Meets (Object.step plainPlatform) PutOrdinary {} openedTwice := by
    refine ⟨trivial, ⟨rfl, by decide, ?_⟩, trivial, ⟨rfl, by decide, ?_⟩, trivial⟩
    all_goals
      rintro s hrow -
      cases hrow
      decide
  obtain ⟨hfailed, hfiles, -, hget⟩ := one_object_keeps_segments plainPlatform openedTwice hordinary
  refine ⟨hfailed, rfl, hfiles, ?_⟩
  rw [← hget rfl ⟨1⟩]
  rfl

end OmxDb
