import OmxDb.Agreement
import OmxDb.RowStreams

/-!
# Lookups without index and filter

`findOnDisk` asks the filter, then the index, and reads one row at the hint of the index. Reading whole segment files
from the most recently registered one on, until one has a row of the key, comes to the same: in every state of a history
whose snapshots find a free number, are small and are taken by puts of ordinary keys, `get` answers what the plain
search answers (`get_eq_getByScan`).
-/

namespace OmxDb

open StorageEngine

/-! ### The plain search -/

/-- The row of the key in the first of the segment files that has one. -/
def scanSegments (P : Platform) (disk : Disk) (key : Key) : List UInt32 → Except Fault (Option SSTableRow)
  | [] => .ok none
  | fileId :: rest =>
    match SSTable.load P ⟨[]⟩ (openFile (disk.segment (segmentFile fileId.toNat))) with
    | .error fault => .error fault
    | .ok table =>
      match table.rows.find? fun row => row.key = key with
      | some row => .ok (some row)
      | none => scanSegments P disk key rest

/-- `get` with the plain search in the place of `findOnDisk`. -/
def getByScan (P : Platform) (s : Store) (key : Key) : Except Fault (Option ByteString) :=
  match findInMemory s key with
  | some found => finishGet s.engine (some found)
  | none =>
    match scanSegments P s.disk key (s.engine.index.tableIndexes.map SSTableIndex.getFileId) with
    | .error fault => .error fault
    | .ok row => finishGet s.engine (row.bind visible)

/-! ### Segments -/

theorem load_segment (P : Platform) {rows : List SSTableRow} (h : rows ≠ []) :
    SSTable.load P ⟨[]⟩ (IStream.ofBytes (serializeAll rows)) = .ok ⟨rows⟩ := by
  obtain ⟨row, rows, rfl⟩ := List.exists_cons_of_ne_nil h
  have hlength := MemTable.length_le_serializeAll (row :: rows)
  rw [List.length_cons] at hlength
  have hfuel : rows.length + 2 ≤ (IStream.ofBytes (serializeAll (row :: rows))).rest.length + 2 := by
    show rows.length + 2 ≤ (serializeAll (row :: rows)).length + 2
    omega
  rw [SSTable.load, SSTable.loadLoop_eq, MemTable.readRows_rows P row rows hfuel]
  rfl

theorem scanSegments_eq {P : Platform} {disk : Disk} {key : Key} {tables : List SSTableIndex} {segs : List Segment}
    (htables : List.Forall₂ (fun t seg => ∀ key, TableOf key t seg) tables segs) (hfiles : SegmentFiles disk segs)
    (hrows : ∀ seg ∈ segs, seg.rows ≠ []) :
    scanSegments P disk key (tables.map SSTableIndex.getFileId) = .ok (newestRow segs key) := by
  induction htables with
  | nil => rfl
  | @cons t seg tables segs htable _ ih =>
    have hfile := hfiles seg (List.mem_cons_self ..)
    have hid : t.getFileId = seg.fileId := (htable key).1
    rw [List.map_cons, scanSegments, hid, hfile, openFile, Segment.bytes,
      load_segment P (hrows seg (List.mem_cons_self ..)), newestRow_cons]
    dsimp only
    unfold Segment.find
    cases seg.rows.find? fun row => row.key = key with
    | some row => rfl
    | none =>
      exact ih (fun seg hseg => hfiles seg (List.mem_cons_of_mem _ hseg))
        fun seg hseg => hrows seg (List.mem_cons_of_mem _ hseg)

/-- Where every segment has rows, `get` answers what the plain search answers. -/
theorem Sound.get_eq_scan {P : Platform} {s : Store} {segs : List Segment} (h : Sound P s segs)
    (hrows : ∀ seg ∈ segs, seg.rows ≠ []) (key : Key) : StorageEngine.get P s key = getByScan P s key := by
  rw [get_eq (h.at key)]
  unfold getByScan found findInMemory
  rw [scanSegments_eq h.index h.files hrows, MemTable.get_eq]
  cases (s.engine.memTable.findRow key).bind visible <;> rfl

/-! ### Histories -/

/-- A put is of an ordinary key, and a snapshot it takes finds the counter past every registered id and writes less than
`2 ^ 32` bytes. -/
def SnapshotOrdinary (w : World) : Event → Prop
  | .put opened key value => key.id ≠ npos ∧ NumbersFresh w (.put opened key value) ∧
      SnapshotSmall w (.put opened key value)
  | _ => True

/-- The world stands for segments that all have rows. -/
def ScanInv (P : Platform) (w : World) : Prop := ∃ segs, SoundWorld P w segs ∧ ∀ seg ∈ segs, seg.rows ≠ []

theorem rows_ofMemTable_ne_nil {m : MemTable} {row : SSTableRow} (hkey : row.key.id ≠ npos) {segment : Nat}
    {fits : RowsFit (m.writeRow row).createSortedStringsTable.rows} :
    (Segment.ofMemTable (m.writeRow row) segment fits).rows ≠ [] := by
  intro hnil
  have hfind := MemTable.find?_sortedStringsTable_of_ne (m := m.writeRow row) hkey
  rw [MemTable.findRow_writeRow, if_pos rfl] at hfind
  change (m.writeRow row).createSortedStringsTable.rows = [] at hnil
  rw [hnil] at hfind
  cases hfind

theorem ScanInv.step {P : Platform} {w : World} {event : Event} (h : ScanInv P w) (hopened : event.Succeeds)
    (hordinary : SnapshotOrdinary w event) : ScanInv P (OmxDb.step P w event) := by
  obtain ⟨segs, hworld, hrows⟩ := h
  by_cases hput : ∃ opened key value, event = .put opened key value
  · obtain ⟨opened, key, value, rfl⟩ := hput
    obtain ⟨hkey, hfresh, hsmall⟩ := hordinary
    cases hopened
    cases hworld with
    | closed hpersisted hoptions hwal => exact ⟨segs, .closed hpersisted hoptions hwal, hrows⟩
    | @opened disk e snapshots _ logged hsound hlog =>
      rcases hsound.put_cases (snapshotFresh_of rfl rfl hsmall hfresh) with ⟨fault, -, hput, -⟩ |
        ⟨row, hrowKey, -, -, ⟨hput, -⟩ | ⟨fits, s', -, hput, hsound', -, hmemTable, -, -⟩⟩
      · rw [step_put hput]
        exact ⟨segs, .opened hsound hlog, hrows⟩
      · rw [step_put hput]
        exact ⟨segs, .opened (hsound.withMemTable _) (hlog.writeRow row), hrows⟩
      · rw [step_put hput]
        refine ⟨_, .opened hsound' (hmemTable ▸ (hlog.writeRow row).clear), ?_⟩
        rw [List.forall_mem_cons]
        exact ⟨rows_ofMemTable_ne_nil (by rw [hrowKey]; exact hkey), hrows⟩
  · obtain ⟨segs', hperm, hworld', -⟩ := hworld.step_other
      (fun opened key value heq => hput ⟨opened, key, value, heq⟩) fun _ _ _ => hrows
    exact ⟨segs', hworld', fun seg hseg => hrows seg (hperm.mem_iff.mp hseg)⟩

/-- In every state of a history whose puts are of ordinary keys and whose snapshots all find a fresh number, with less
than `2 ^ 32` bytes each, `get` through filter, index and hints answers what the search through whole segment files
answers, for every key. -/
theorem get_eq_getByScan (P : Platform) (events : List Event) (hopened : ∀ event ∈ events, event.Succeeds)
    (hordinary : Runs.Meets (step P) SnapshotOrdinary {} events) (e : StorageEngine)
    (hengine : (Runs.run (step P) {} events).engine = some e) (key : Key) :
    StorageEngine.get P ⟨(Runs.run (step P) {} events).disk, e⟩ key
      = getByScan P ⟨(Runs.run (step P) {} events).disk, e⟩ key := by
  obtain ⟨segs, hworld, hrows⟩ : ScanInv P (Runs.run (step P) {} events) := by
    refine Runs.run_inv (ScanInv P) ?_ ((Runs.Meets.of_forall (step P) {} hopened).and hordinary)
      ⟨[], soundWorld_empty P, fun seg hseg => absurd hseg List.not_mem_nil⟩
    rintro w event hinv ⟨hopen, hcond⟩
    exact hinv.step hopen hcond
  generalize Runs.run (step P) {} events = w at hworld hengine
  cases hworld with
  | closed => cases hengine
  | opened hsound _ =>
    cases hengine
    exact hsound.get_eq_scan hrows key

/-- Two snapshots of one key, and a session that only opens. -/
def scanned : List Event :=
  [.open plainOptions, .put {} ⟨1⟩ (.single 97), .put {} ⟨1⟩ (.single 98), .close,
    .open plainOptions]

/-- Both searches find the second value. -/
theorem get_eq_getByScan_scanned :
    ∃ e, (Runs.run (step plainPlatform) {} scanned).engine = some e ∧
      StorageEngine.get plainPlatform ⟨(Runs.run (step plainPlatform) {} scanned).disk, e⟩ ⟨1⟩
        = getByScan plainPlatform ⟨(Runs.run (step plainPlatform) {} scanned).disk, e⟩ ⟨1⟩ := by
  obtain ⟨e, hengine⟩ : ∃ e, (Runs.run (step plainPlatform) {} scanned).engine = some e := ⟨_, rfl⟩
  refine ⟨e, hengine, get_eq_getByScan plainPlatform scanned ?_ ?_ e hengine ⟨1⟩⟩
  · intro event hmem
    simp only [scanned, List.mem_cons, List.not_mem_nil, or_false] at hmem
    rcases hmem with rfl | rfl | rfl | rfl | rfl
    · trivial
    · rfl
    · rfl
    · trivial
    · trivial
  · refine ⟨trivial, ⟨by decide, ?_, ?_⟩, ⟨by decide, ?_, ?_⟩, trivial, trivial, trivial⟩
    · rintro e s ⟨⟩ - -
      exact ⟨by decide, fun t ht => by cases ht⟩
    · rintro e s ⟨⟩ hrow -
      cases hrow
      decide
    · rintro e s ⟨⟩ - -
      exact ⟨by decide, by decide⟩
    · rintro e s ⟨⟩ hrow -
      cases hrow
      decide

end OmxDb
