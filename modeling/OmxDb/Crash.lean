import OmxDb.Reopening
import OmxDb.TornIndex

/-!
# Crashes during a snapshot

A snapshot rewrites three files in place. `crashDisk` is the directory when the process stops between two of
them or inside one, with the log of the session complete. The next open replays that log, so a key that is
live in it is safe wherever the crash was. Any other key has to be answered from the files: as before if its
value was not only in the memtable, the first table that has it keeps its rank, a cut filter still holds all
its positions, and a cut index file has no wrong entry for it (`survivesCrash_of_meets`).
-/

namespace OmxDb

open StorageEngine

/-! ### Crash points -/

/-- Before the first file, or in one of the three files behind that many of its bytes. -/
inductive CrashPoint where
  | start
  | segment (written : Nat)
  | bloom (written : Nat)
  | index (written : Nat)

/-- The filter and the table index a snapshot of the store writes. -/
def snapshotFilter (P : Platform) (s : Store) : BloomFilter kFilterSize kNumHashes :=
  s.engine.bloomFilter.addAll P (s.engine.memTable.createSortedStringsTable.rows.map SSTableRow.key)

def snapshotTable (s : Store) : SSTableIndex :=
  SSTableIndex.ofTable (UInt32.ofNat s.engine.segmentId) s.engine.memTable.createSortedStringsTable

/-- The directory after a crash during the snapshot of the store. Files before the one that is being written
are complete, later ones as before, and `wal.bin` holds every byte logged. -/
def crashDisk (P : Platform) (s : Store) : CrashPoint → Disk
  | .start => close s
  | .segment written =>
    (close s).writeSegment (segmentFile s.engine.segmentId) (s.engine.memTable.dump.take written)
  | .bloom written =>
    ((close s).writeSegment (segmentFile s.engine.segmentId) s.engine.memTable.dump).writeBloom
      ((snapshotFilter P s).dump.take written)
  | .index written =>
    (((close s).writeSegment (segmentFile s.engine.segmentId) s.engine.memTable.dump).writeBloom
      (snapshotFilter P s).dump).writeIndex (indexFile s.engine.segmentId)
        (((snapshotTable s).dump P).take written)

theorem crashDisk_index_length (P : Platform) (s : Store) :
    crashDisk P s (.index ((snapshotTable s).dump P).length)
      = { (makeSnapshot P {} s).1.disk with wal := (close s).wal } := by
  have hclose : close s = { s.disk with wal := (close s).wal } := by
    unfold close
    cases s.engine.memTable.wal <;> rfl
  dsimp only [crashDisk]
  rw [List.take_length, hclose]
  unfold makeSnapshot snapshotSegment snapshotBloom snapshotIndex
  simp only [if_true]
  split <;> rfl

/-! ### Statements -/

/-- What the files have to keep of a key that is not live in the log. -/
def PointKeeps (P : Platform) (s s' : Store) (key : Key) : CrashPoint → Prop
  | .start => True
  | .segment _ => True
  | .bloom written => findOnDisk P s key = .ok none ∨ ∀ i < kNumHashes,
      (BloomFilter.rehash i (BloomFilter.hash P key) : Fin kFilterSize).val < written
  | .index written =>
    let entries := (snapshotTable s').entries P
    let whole := (SSTableIndex.wholeEntries entries written).map Prod.fst
    (key ∈ whole → ∀ row, s.engine.memTable.findRow key = some row → row.entryType = .Remove →
        findOnDisk P s key = .ok none) ∧
      (5 ≤ written → key = SSTableIndex.tornKey entries written → key ∈ whole ∨
        (snapshotFilter P s').probablyContains P key = false)

/-- What the snapshot's number has to be when a file with it was begun: no registered table has it, nor what a
cut header makes of it. -/
def NumberKept (s' : Store) : CrashPoint → Prop
  | .start => True
  | .segment _ => NumberFree s'.engine
  | .bloom _ => NumberFree s'.engine
  | .index written => NumberFree s'.engine ∧ s'.engine.segmentId < 2 ^ 32 ∧
      RowsFit s'.engine.memTable.createSortedStringsTable.rows ∧
      (written < 5 → ∀ t ∈ s'.engine.index.tableIndexes,
        t.fileId.toNat ≠ s'.engine.segmentId % 256 ^ (written - 1))

/-- The number is kept, and every other key is live in the log, or its value is not only in the memtable, the
first table that has it has the greatest name, and the files keep it. -/
structure CrashHarmless (P : Platform) (s s' : Store) (key : Key) (point : CrashPoint) : Prop where
  number : NumberKept s' point
  keys : ∃ m, replayLog P (close s').wal = .ok m ∧ ∀ key', key' ≠ key →
    m.get key' ≠ none ∨
      (s.engine.memTable.get key' = none ∨ findOnDisk P s key' = .ok (s.engine.memTable.get key')) ∧
        FirstHasGreatestName s.engine.index key' ∧ PointKeeps P s s' key' point

/-- The next open returns, every other key that was readable is readable with the same value, and every other
key that was absent is absent. -/
def SurvivesCrash (P : Platform) (s s' : Store) (key : Key) (point : CrashPoint) : Prop :=
  ∀ options, ∃ s'' : Store, «open» P {} options {} (crashDisk P s' point) = (s''.disk, .ok s''.engine) ∧
    ∀ key', key' ≠ key →
      (∀ value, get P s key' = .ok (some value) → get P s'' key' = .ok (some value)) ∧
        (get P s key' = .ok none → get P s'' key' = .ok none)

/-! ### Lookups in the reopened directory -/

/-- The store an open of the directory returns when its index loads. -/
def reopened (P : Platform) (opts : Options) (m : MemTable) (index : Index) (disk : Disk) : Store :=
  ⟨openedDisk opts disk, openedEngine P opts m index disk⟩

section lookups

variable {P : Platform} {s s' : Store} {segs : List Segment} {key : Key} {disk : Disk} {opts : Options}
  {m : MemTable} {index : Index}

theorem segment_openedDisk {name : FileName} {bytes : List UInt8} (h : disk.segment name = some bytes) :
    (openedDisk opts disk).segment name = some bytes := by
  obtain ⟨dir, hdir, hlookup⟩ := Option.bind_eq_some_iff.mp h
  unfold Disk.segment openedDisk
  rw [hdir]
  exact hlookup

/-- With the segments in their files and their tables in the order of file names, a key whose first table has
the greatest name is found as before, if the filter still has it. -/
theorem findOnDisk_reopened (hsound : Sound P s segs) (hfiles : SegmentFiles disk segs)
    (hindex : List.Forall₂ (fun t seg => ∀ key, TableOf key t seg) index.tableIndexes
      (byFileName Segment.fileId segs))
    (hfirst : FirstHasGreatestName s.engine.index key)
    (hfilter : findOnDisk P s key ≠ .ok none → (filterOnDisk disk.bloom).probablyContains P key = true) :
    findOnDisk P (reopened P opts m index disk) key = findOnDisk P s key := by
  have hnewest := newestRow_reload (hsound.at key) hsound.persisted.distinct hfirst
  have hold := findOnDisk_eq (hsound.at key)
  have hat : RepresentsAt P (reopened P opts m index disk) (byFileName Segment.fileId segs) key :=
    { index := hindex.imp fun _ _ ht => ht key
      files := fun seg hseg _ => segment_openedDisk (hfiles seg (mem_byFileName.mp hseg))
      covers := by
        intro hlive
        apply hfilter
        rw [hold, ← hnewest]
        exact fun h => hlive (Except.ok.inj h) }
  rw [findOnDisk_eq hat, hold, hnewest]

theorem mem_inserted {name : UInt32} {new seg : Segment} :
    seg ∈ (byFileName Prod.fst ((name, new) :: segs.map fun seg => (seg.fileId, seg))).map Prod.snd ↔
      seg = new ∨ seg ∈ segs := by
  simp only [List.mem_map, mem_byFileName, List.mem_cons]
  constructor
  · rintro ⟨file, rfl | ⟨seg, hseg, rfl⟩, rfl⟩
    · exact Or.inl rfl
    · exact Or.inr hseg
  · rintro (rfl | hseg)
    · exact ⟨_, Or.inl rfl, rfl⟩
    · exact ⟨_, Or.inr ⟨seg, hseg, rfl⟩, rfl⟩

section inserted

variable {name : UInt32} {new : Segment}
  (hdistinct : ((name, new) :: segs.map fun seg => (seg.fileId, seg)).Pairwise fun a b => a.1 ≠ b.1)
include hdistinct

theorem newestRow_inserted_new {row : SSTableRow} (hfind : new.find key = some row)
    (hmax : ∀ seg ∈ segs, seg.find key ≠ none → indexFile seg.fileId.toNat ≤ indexFile name.toNat) :
    newestRow ((byFileName Prod.fst ((name, new) :: segs.map fun seg => (seg.fileId, seg))).map Prod.snd) key
      = some row := by
  apply newestRow_byFileName Prod.snd hdistinct (x := (name, new)) (by simp) hfind
  intro file hfile hlive
  rcases List.mem_cons.mp hfile with rfl | hfile
  · exact le_refl _
  · obtain ⟨seg, hseg, rfl⟩ := List.mem_map.mp hfile
    exact hmax seg hseg hlive

theorem newestRow_inserted_old {seg : Segment} (hseg : seg ∈ segs) {row : SSTableRow}
    (hfind : seg.find key = some row)
    (hmax : ∀ seg' ∈ segs, seg'.find key ≠ none → indexFile seg'.fileId.toNat ≤ indexFile seg.fileId.toNat)
    (hnew : new.find key ≠ none → indexFile name.toNat ≤ indexFile seg.fileId.toNat) :
    newestRow ((byFileName Prod.fst ((name, new) :: segs.map fun seg => (seg.fileId, seg))).map Prod.snd) key
      = some row := by
  apply newestRow_byFileName Prod.snd hdistinct (x := (seg.fileId, seg))
    (List.mem_cons_of_mem _ (List.mem_map_of_mem hseg)) hfind
  intro file hfile hlive
  rcases List.mem_cons.mp hfile with rfl | hfile
  · exact hnew hlive
  · obtain ⟨seg', hseg', rfl⟩ := List.mem_map.mp hfile
    exact hmax seg' hseg' hlive

end inserted

/-- What one more table does to the newest row of a key: nothing, or its own row is the newest. -/
theorem newestRow_insert (hsound : Sound P s segs) (hfirst : FirstHasGreatestName s.engine.index key)
    {name : UInt32} (hname : ∀ seg ∈ segs, seg.fileId ≠ name) (new : Segment) :
    newestRow ((byFileName Prod.fst ((name, new) :: segs.map fun seg => (seg.fileId, seg))).map Prod.snd) key
        = newestRow segs key ∨
      ∃ row, new.find key = some row ∧
        newestRow ((byFileName Prod.fst ((name, new) :: segs.map fun seg => (seg.fileId, seg))).map Prod.snd) key
          = some row := by
  have hdistinct : ((name, new) :: segs.map fun seg => (seg.fileId, seg)).Pairwise fun a b => a.1 ≠ b.1 := by
    rw [List.pairwise_cons, List.pairwise_map]
    refine ⟨?_, hsound.persisted.distinct⟩
    intro file hfile
    obtain ⟨seg, hseg, rfl⟩ := List.mem_map.mp hfile
    exact (hname seg hseg).symm
  rcases newestRow_cases (hsound.at key) hfirst with hnone | ⟨seg, hseg, row, hnewest, hfind, hmax⟩
  · -- no other table has a row of the key
    rw [newestRow_eq_none] at hnone
    cases hnew : new.find key with
    | none =>
      refine Or.inl ?_
      rw [newestRow_eq_none.mpr hnone, newestRow_eq_none]
      intro seg hseg
      rcases mem_inserted.mp hseg with rfl | hseg
      · exact hnew
      · exact hnone seg hseg
    | some row =>
      refine Or.inr ⟨row, rfl, newestRow_inserted_new hdistinct hnew ?_⟩
      intro seg hseg hlive
      exact absurd (hnone seg hseg) hlive
  · rw [hnewest]
    cases hnew : new.find key with
    | none => exact Or.inl (newestRow_inserted_old hdistinct hseg hfind hmax (fun hlive => absurd hnew hlive))
    | some row' =>
      -- the greater of the two names decides
      rcases le_total (indexFile name.toNat) (indexFile seg.fileId.toNat) with hle | hle
      · exact Or.inl (newestRow_inserted_old hdistinct hseg hfind hmax (fun _ => hle))
      · refine Or.inr ⟨row', rfl, newestRow_inserted_new hdistinct hnew ?_⟩
        intro seg' hseg' hlive
        exact le_trans (hmax seg' hseg' hlive) hle

theorem find_ofMemTable_of_ne {m : MemTable} {row : SSTableRow} {segment : Nat}
    {fits : RowsFit (m.writeRow row).createSortedStringsTable.rows} (hkey : key ≠ row.key) :
    (Segment.ofMemTable (m.writeRow row) segment fits).find key = m.findRow key := by
  have hfind : (m.writeRow row).findRow key = m.findRow key := by
    rw [MemTable.findRow_writeRow, if_neg hkey.symm]
  rw [← hfind]
  by_cases hid : key.id = npos
  · -- the key just written is then not `npos`
    have hself : (m.writeRow row).findRow row.key = some row := by
      rw [MemTable.findRow_writeRow, if_pos rfl]
    apply Segment.find_ofMemTable (MemTable.hasOrdinaryKey_of_findRow hself _)
    intro hrow
    apply hkey
    cases key
    cases h : row.key
    rw [h] at hrow
    simp_all
  · exact MemTable.find?_sortedStringsTable_of_ne hid

/-- The cut index file of a snapshot loads to a table with a new id, and with the hints of the snapshot where
it has any, but for the torn entry. -/
theorem load_cut {new : Segment} (written : Nat) (hnew : ∀ seg ∈ segs, seg.fileId ≠ new.fileId)
    (hheader : written < 5 → ∀ seg ∈ segs,
      seg.fileId.toNat ≠ new.fileId.toNat % 256 ^ (written - 1)) :
    ∃ t, SSTableIndex.load (IStream.ofBytes ((new.tableIndex.dump P).take written)) = .ok t ∧
      (∀ seg ∈ segs, seg.fileId ≠ t.fileId) ∧
      ∀ key, (5 ≤ written → key = SSTableIndex.tornKey (new.tableIndex.entries P) written →
          key ∈ (SSTableIndex.wholeEntries (new.tableIndex.entries P) written).map Prod.fst) →
        t.get key = none ∨ t.fileId = new.fileId ∧
          key ∈ (SSTableIndex.wholeEntries (new.tableIndex.entries P) written).map Prod.fst ∧
          t.get key = new.tableIndex.get key := by
  rcases Nat.lt_or_ge written 5 with hlt | hge
  · refine ⟨_, SSTableIndex.load_take_header P new.tableIndex hlt, ?_, fun key _ => Or.inl rfl⟩
    intro seg hseg heq
    apply hheader hlt seg hseg
    have hid : new.fileId.toNat % 256 ^ (written - 1) < 2 ^ 32 :=
      lt_of_le_of_lt (Nat.mod_le _ _) new.fileId.toNat_lt
    rw [heq, Segment.fileId_tableIndex]
    exact UInt32.toNat_ofNat_of_lt hid
  · obtain ⟨t, hload, hid, hget⟩ := SSTableIndex.load_take P new.tableIndex hge
    rw [Segment.fileId_tableIndex] at hid
    refine ⟨t, hload, fun seg hseg => hid ▸ hnew seg hseg, ?_⟩
    intro key hkey
    exact (hget key (hkey hge)).imp_right fun h => ⟨hid, h⟩

/-- A table without the key, as a segment. -/
def Segment.without (fileId : UInt32) : Segment where
  fileId := fileId
  rows := []
  sorted := List.Pairwise.nil
  fits := by
    intro before row after h
    simp at h

theorem load_index_insert (hsound : Sound P s segs) (hrows : ∀ seg ∈ segs, seg.rows ≠ []) {name : UInt32}
    (hname : ∀ seg ∈ segs, seg.fileId ≠ name) {bytes : List UInt8} {t : SSTableIndex}
    (hload : SSTableIndex.load (IStream.ofBytes bytes) = .ok t) (hid : ∀ seg ∈ segs, seg.fileId ≠ t.fileId) :
    ∃ index, Index.load (fun _ => false)
        ((s.disk.indexDir.getD ∅).insert (indexFile name.toNat) bytes) {} = .ok index ∧
      ∀ key new, TableOf key t new → List.Forall₂ (TableOf key) index.tableIndexes
        ((byFileName Prod.fst ((name, new) :: segs.map fun seg => (seg.fileId, seg))).map Prod.snd) := by
  have hmem : ∀ {p : UInt32 → Prop}, (∀ seg ∈ segs, p seg.fileId) →
      ∀ t ∈ segs.map Segment.tableIndex, p t.fileId := by
    intro p hp t ht
    obtain ⟨seg, hseg, rfl⟩ := List.mem_map.mp ht
    rw [Segment.fileId_tableIndex]
    exact hp seg hseg
  obtain ⟨index, hindex, table, htable, hlist⟩ := load_insert hsound.persisted.indexes
    hsound.persisted.ids_pairwise (by
      intro t ht
      obtain ⟨seg, hseg, rfl⟩ := List.mem_map.mp ht
      exact Segment.exists_get_tableIndex (hrows seg hseg)) hload
    (hmem (p := fun id => id ≠ name) hname) (hmem (p := fun id => id ≠ t.fileId) hid)
  refine ⟨index, hindex, ?_⟩
  intro key new hnew
  rw [hlist, List.forall₂_map_left_iff, List.forall₂_map_right_iff]
  apply byFileName_forall₂
  refine List.Forall₂.cons ⟨rfl, hnew⟩ ?_
  rw [List.map_map, List.forall₂_map_left_iff, List.forall₂_map_right_iff, List.forall₂_same]
  intro seg hseg
  obtain ⟨hsame, hget⟩ := htable _ (List.mem_map_of_mem hseg)
  exact ⟨Segment.fileId_tableIndex seg, hsame.trans (Segment.fileId_tableIndex seg), hget key⟩

theorem findOnDisk_inserted (hsound : Sound P s segs) (hfirst : FirstHasGreatestName s.engine.index key)
    {name : UInt32} (hname : ∀ seg ∈ segs, seg.fileId ≠ name) (new : Segment)
    (hat : RepresentsAt P s'
      ((byFileName Prod.fst ((name, new) :: segs.map fun seg => (seg.fileId, seg))).map Prod.snd) key)
    (hsame : ∀ row, new.find key = some row → visible row = (newestRow segs key).bind visible) :
    findOnDisk P s' key = findOnDisk P s key := by
  rw [findOnDisk_eq hat, findOnDisk_eq (hsound.at key)]
  rcases newestRow_insert hsound hfirst hname new with heq | ⟨row, hfind, heq⟩
  · rw [heq]
  · rw [heq, Option.bind_some, hsame row hfind]

/-- A key is found as before in a directory with one more table that has, if the filter has the key at all, no
hint of it or the hint of a segment whose row is as good as the newest one. -/
theorem findOnDisk_cut (hsound : Sound P s segs) (hfirst : FirstHasGreatestName s.engine.index key)
    (hfiles : SegmentFiles disk segs)
    (hcovers : newestRow segs key ≠ none → (filterOnDisk disk.bloom).probablyContains P key = true)
    {new : Segment} (hnew : ∀ seg ∈ segs, seg.fileId ≠ new.fileId)
    (hfile : disk.segment (segmentFile new.fileId.toNat) = some new.bytes) {t : SSTableIndex}
    (hindex : ∀ new', TableOf key t new' → List.Forall₂ (TableOf key) index.tableIndexes
      ((byFileName Prod.fst ((new.fileId, new') :: segs.map fun seg => (seg.fileId, seg))).map Prod.snd))
    (htable : (filterOnDisk disk.bloom).probablyContains P key = true → t.get key = none ∨ TableOf key t new ∧
      ∀ row, new.find key = some row → visible row = (newestRow segs key).bind visible) :
    findOnDisk P (reopened P opts m index disk) key = findOnDisk P s key := by
  by_cases hcontains : (filterOnDisk disk.bloom).probablyContains P key = true
  · have hold : ∀ seg ∈ segs, (openedDisk opts disk).segment (segmentFile seg.fileId.toNat) = some seg.bytes :=
      fun seg hseg => segment_openedDisk (hfiles seg hseg)
    rcases htable hcontains with hnone | ⟨htable, hsame⟩
    · apply findOnDisk_inserted hsound hfirst hnew (Segment.without t.fileId)
      · exact {
          index := hindex _ ⟨rfl, hnone.trans (Segment.get_tableIndex_eq_none rfl).symm⟩
          files := by
            intro seg hseg hlive
            rcases mem_inserted.mp hseg with rfl | hseg
            · exact absurd rfl hlive
            · exact hold seg hseg
          covers := fun _ => hcontains }
      · intro row hfind
        cases hfind
    · apply findOnDisk_inserted hsound hfirst hnew new
      · exact {
          index := hindex new htable
          files := by
            intro seg hseg _
            rcases mem_inserted.mp hseg with rfl | hseg
            · exact segment_openedDisk hfile
            · exact hold seg hseg
          covers := fun _ => hcontains }
      · exact hsame
  · -- the filter does not have the key, so no segment has it
    have hnone : newestRow segs key = none := by
      by_contra hne
      exact hcontains (hcovers hne)
    rw [findOnDisk_eq (hsound.at key), hnone]
    unfold findOnDisk
    exact if_neg hcontains

end lookups

/-! ### The crash -/

section crash

variable {P : Platform} {s : Store} {segs : List Segment} {row : SSTableRow} {logged : List SSTableRow}

theorem close_write (hlogged : Logged s.engine.memTable logged) (row : SSTableRow) :
    close (s.write row) = { s.disk with wal := some (serializeAll (logged ++ [row])) } :=
  close_eq (s := s.write row) (hlogged.writeRow row)

theorem segmentFiles_crash (hsound : Sound P s segs) (hlogged : Logged s.engine.memTable logged)
    {point : CrashPoint} (hnumber : NumberKept (s.write row) point) :
    SegmentFiles (crashDisk P (s.write row) point) segs := by
  have hkept : NumberFree s.engine → ∀ bytes, SegmentFiles
      ((close (s.write row)).writeSegment (segmentFile s.engine.segmentId) bytes) segs := by
    intro hfree bytes seg hseg
    have hne : segmentFile seg.fileId.toNat ≠ segmentFile s.engine.segmentId := fun heq =>
      hsound.numberFree_iff.mp hfree seg hseg (segmentFile_injective heq)
    rw [Disk.segment_writeSegment_ne hne, close_write hlogged row]
    exact hsound.files seg hseg
  cases point with
  | start =>
    intro seg hseg
    show (close (s.write row)).segment _ = _
    rw [close_write hlogged row]
    exact hsound.files seg hseg
  | segment written => exact hkept hnumber _
  | bloom written => exact hkept hnumber _
  | index written => exact hkept hnumber.1 _

theorem snapshotFilter_contains (hsound : Sound P s segs) (hrow : newestRow segs key ≠ none) :
    (snapshotFilter P (s.write row)).probablyContains P key = true :=
  (hsound.covers.mono (BloomFilter.le_addAll P _ _)).contains hrow

theorem exists_index_crash_index (hsound : Sound P s segs) (hrows : ∀ seg ∈ segs, seg.rows ≠ [])
    (hlogged : Logged s.engine.memTable logged) {written : Nat} (hnumber : NumberKept (s.write row) (.index written))
    (opts : Options) (m : MemTable) :
    ∃ index, Index.load (fun _ => false) ((crashDisk P (s.write row) (.index written)).indexDir.getD ∅) {}
        = .ok index ∧
      ∀ key, key ≠ row.key →
        (s.engine.memTable.get key = none ∨ findOnDisk P s key = .ok (s.engine.memTable.get key)) →
        FirstHasGreatestName s.engine.index key → PointKeeps P s (s.write row) key (.index written) →
          findOnDisk P (reopened P opts m index (crashDisk P (s.write row) (.index written))) key
            = findOnDisk P s key := by
  have hfiles := segmentFiles_crash hsound hlogged hnumber
  have hclose := close_write hlogged row
  obtain ⟨hfree, hword, fits, hheader⟩ := hnumber
  let new := Segment.ofMemTable (s.engine.memTable.writeRow row) s.engine.segmentId fits
  have hid : new.fileId.toNat = s.engine.segmentId := UInt32.toNat_ofNat_of_lt hword
  have hnew : ∀ seg ∈ segs, seg.fileId ≠ new.fileId := by
    intro seg hseg heq
    exact hsound.numberFree_iff.mp hfree seg hseg (by rw [heq, hid])
  obtain ⟨t, ht, htid, hget⟩ := load_cut (P := P) written hnew (by
    intro hlt seg hseg
    obtain ⟨t, ht, hsame⟩ := hsound.fileId_mem.mpr ⟨seg, hseg, rfl⟩
    rw [← hsame, hid]
    exact hheader hlt t ht)
  obtain ⟨index, hload, hindex⟩ := load_index_insert hsound hrows hnew ht htid
  refine ⟨index, ?_, ?_⟩
  · obtain ⟨dir, hdir⟩ := Option.isSome_iff_exists.mp hsound.indexDir
    have hdirectory : (crashDisk P (s.write row) (.index written)).indexDir.getD ∅
        = (s.disk.indexDir.getD ∅).insert (indexFile new.fileId.toNat)
            ((new.tableIndex.dump P).take written) := by
      dsimp only [crashDisk, Disk.writeIndex, Disk.writeBloom, Disk.writeSegment]
      rw [hid, hclose, hdir]
      rfl
    rw [hdirectory]
    exact hload
  · intro key hkey hdisk hfirst ⟨htombstone, htorn⟩
    rw [findOnDisk_eq (hsound.at key)] at hdisk htombstone
    have hbloom : filterOnDisk (crashDisk P (s.write row) (.index written)).bloom
        = snapshotFilter P (s.write row) := filterOnDisk_dump _
    apply findOnDisk_cut hsound hfirst hfiles (hbloom ▸ snapshotFilter_contains hsound) hnew ?_ (hindex key)
    · rw [hbloom]
      intro hcontains
      refine (hget key fun hge htorn' => (htorn hge htorn').resolve_right (by simp [hcontains])).imp_right ?_
      rintro ⟨hsame, hwhole, hhint⟩
      refine ⟨⟨hsame, hhint⟩, ?_⟩
      -- the row of the new segment is the one of the memtable
      intro found hfind
      have hfind : s.engine.memTable.findRow key = some found := (find_ofMemTable_of_ne hkey).symm.trans hfind
      rw [MemTable.get_eq, hfind, Option.bind_some, Except.ok.injEq] at hdisk
      rcases hdisk with hnone | heq
      · rw [hnone]
        exact (Except.ok.inj (htombstone hwhole found hfind (visible_eq_none_iff.mp hnone))).symm
      · exact heq.symm
    · show ((close (s.write row)).writeSegment (segmentFile s.engine.segmentId) _).segment _ = _
      rw [hid, show new.bytes = (s.write row).engine.memTable.dump from Segment.bytes_ofMemTable, hclose]
      apply Disk.segment_writeSegment_self
      exact hsound.segmentDir

/-- The index directory loads at every crash point, and what the files have to keep is found as before. -/
theorem exists_index_crash (hsound : Sound P s segs) (hrows : ∀ seg ∈ segs, seg.rows ≠ [])
    (hlogged : Logged s.engine.memTable logged) {point : CrashPoint} (hnumber : NumberKept (s.write row) point)
    (opts : Options) (m : MemTable) :
    ∃ index, Index.load (fun _ => false) ((crashDisk P (s.write row) point).indexDir.getD ∅) {} = .ok index ∧
      ∀ key, key ≠ row.key →
        (s.engine.memTable.get key = none ∨ findOnDisk P s key = .ok (s.engine.memTable.get key)) →
        FirstHasGreatestName s.engine.index key → PointKeeps P s (s.write row) key point →
          findOnDisk P (reopened P opts m index (crashDisk P (s.write row) point)) key = findOnDisk P s key := by
  have hfiles := segmentFiles_crash hsound hlogged hnumber
  have hclose := close_write hlogged row
  -- a key that is found has a row, so the filter of the files has it
  have hfound : ∀ key, findOnDisk P s key ≠ .ok none → newestRow segs key ≠ none := by
    intro key hne hnone
    apply hne
    rw [findOnDisk_eq (hsound.at key), hnone]
    rfl
  -- the points before the index file: the tables are those registered, and the filter is all that can be cut
  have hbefore : (crashDisk P (s.write row) point).indexDir = s.disk.indexDir →
      (∀ key, PointKeeps P s (s.write row) key point → findOnDisk P s key ≠ .ok none →
        (filterOnDisk (crashDisk P (s.write row) point).bloom).probablyContains P key = true) →
      ∃ index, Index.load (fun _ => false) ((crashDisk P (s.write row) point).indexDir.getD ∅) {} = .ok index ∧
        ∀ key, key ≠ row.key →
          (s.engine.memTable.get key = none ∨ findOnDisk P s key = .ok (s.engine.memTable.get key)) →
          FirstHasGreatestName s.engine.index key → PointKeeps P s (s.write row) key point →
            findOnDisk P (reopened P opts m index (crashDisk P (s.write row) point)) key
              = findOnDisk P s key := by
    intro hdirectory hkept
    obtain ⟨index, hload, htables⟩ := hsound.persisted.load_index hrows
    refine ⟨index, by rw [hdirectory]; exact hload, ?_⟩
    intro key _ _ hfirst hkeeps
    exact findOnDisk_reopened hsound hfiles htables hfirst (hkept key hkeeps)
  have hindexDir : (close (s.write row)).indexDir = s.disk.indexDir := by rw [hclose]
  have hcovered : ∀ key, findOnDisk P s key ≠ .ok none →
      (filterOnDisk (close (s.write row)).bloom).probablyContains P key = true := by
    intro key hne
    rw [hclose]
    exact hsound.persisted.covers.contains (hfound key hne)
  cases point with
  | start =>
    apply hbefore hindexDir
    intro key _ hne
    exact hcovered key hne
  | segment written =>
    apply hbefore hindexDir
    intro key _ hne
    exact hcovered key hne
  | bloom written =>
    apply hbefore hindexDir
    intro key hkeeps hne
    have hpositions := hkeeps.resolve_left hne
    have hfilter : (snapshotFilter P (s.write row)).probablyContains P key = true :=
      snapshotFilter_contains hsound (hfound key hne)
    have hcontains := BloomFilter.probablyContains_iff.mp hfilter
    apply BloomFilter.probablyContains_iff.mpr
    intro i hi
    show (({} : BloomFilter kFilterSize kNumHashes).load
      ((snapshotFilter P (s.write row)).dump.take written)).bits _ ≠ 0
    rw [BloomFilter.bits_load_take _ _ (hpositions i hi)]
    exact hcontains i hi
  | index written => exact exists_index_crash_index hsound hrows hlogged hnumber opts m

theorem survivesCrash_of_harmless (hsound : Sound P s segs) (hrows : ∀ seg ∈ segs, seg.rows ≠ [])
    (hlogged : Logged s.engine.memTable logged) (hflushed : Flushed s.engine.memTable segs logged)
    {point : CrashPoint} (h : CrashHarmless P s (s.write row) row.key point) :
    SurvivesCrash P s (s.write row) row.key point := by
  intro options
  obtain ⟨m, hreplay, hkeys⟩ := h.keys
  have hclose := close_write hlogged row
  obtain ⟨index, hload, hfiles⟩ := exists_index_crash hsound hrows hlogged h.number s.engine.opts m
  have hwal : (crashDisk P (s.write row) point).wal = (close (s.write row)).wal := by
    cases point <;> rfl
  have hoptions : (crashDisk P (s.write row) point).options = some (saveOptions s.engine.opts) := by
    rw [← hsound.options, show s.disk.options = (close (s.write row)).options by rw [hclose]]
    cases point <;> rfl
  have hopen := open_of_load P options (Or.inr hoptions) (hwal ▸ hreplay) hload
  refine ⟨reopened P s.engine.opts m index _, hopen, ?_⟩
  intro key hkey
  rw [hclose, replayLog_serializeAll, if_neg (by simp), Except.ok.injEq] at hreplay
  have hlast : lastRow (logged ++ [row]) key = lastRow logged key := by
    rw [lastRow_append_singleton, if_neg hkey.symm]
  have hget : get P (reopened P s.engine.opts m index (crashDisk P (s.write row) point)) key
      = get P s key := by
    have hmemTable : (reopened P s.engine.opts m index (crashDisk P (s.write row) point)).engine.memTable
        = (({} : MemTable).insertAll (logged ++ [row])).setWriteAheadLog := hreplay ▸ rfl
    apply get_replayed (hsound.at key) hflushed hmemTable ?_ hlast
    · have hlive := hkeys key hkey
      rw [← hreplay, get_insertAll, hlast] at hlive
      exact hlive.imp_right fun ⟨hdisk, hfirst, hkeeps⟩ => ⟨hdisk, hfiles key hkey hdisk hfirst hkeeps⟩
    · exact finishGet_congr hsound.compressor.symm hsound.hasher.symm
  rw [hget]
  exact ⟨fun value hvalue => hvalue, fun hnone => hnone⟩

end crash

/-- In a history whose snapshots keep their rows, a put survives every crash in its snapshot that is harmless
to the other keys. -/
theorem survivesCrash_of_meets (P : Platform) (events : List Event)
    (hopened : ∀ event ∈ events, event.Succeeds) (hkeeps : Runs.Meets (step P) SnapshotKeepsRows {} events)
    (e : StorageEngine) (hengine : (Runs.run (step P) {} events).engine = some e) (key : Key)
    (value : ByteString) (s' : Store)
    (hrow : putRow ⟨(Runs.run (step P) {} events).disk, e⟩ key value = .ok s') (hdue : snapshotDue s' = true)
    (point : CrashPoint)
    (hharmless : CrashHarmless P ⟨(Runs.run (step P) {} events).disk, e⟩ s' key point) :
    SurvivesCrash P ⟨(Runs.run (step P) {} events).disk, e⟩ s' key point := by
  have hmeets := (Runs.Meets.of_forall (step P) {} hopened).and hkeeps
  obtain ⟨segs, hrows, hworld, hflushed⟩ := Runs.run_inv (FlushInv P)
    (fun w event h hcond => h.step hcond.1 hcond.2) hmeets ⟨_, flushedWorld_empty P⟩
  generalize Runs.run (step P) {} events = w at *
  cases hworld with
  | closed => cases hengine
  | @opened disk e' snapshots _ _ hsound _ =>
    cases hengine
    obtain ⟨logged, hlogged, hnewest⟩ := hflushed e rfl
    obtain ⟨fault, hfault⟩ | ⟨row, rfl, -, hwrite⟩ := putRow_cases ⟨disk, e⟩ key value
    · rw [hfault] at hrow
      cases hrow
    · rw [hwrite, Except.ok.injEq] at hrow
      subst hrow
      exact survivesCrash_of_harmless hsound hrows hlogged hnewest hharmless

/-- A value is put that the memtable and the log keep. -/
def inMemoryAndLog : List Event :=
  [.open { plainOptions with maxMemTableSize := 40 }, .put {} ⟨1⟩ (.single 97)]

/-- A value whose put takes a snapshot after it. -/
def tenBytes : ByteString := ⟨List.replicate 10 98, by decide⟩

theorem store_inMemoryAndLog :
    ∃ e s', (Runs.run (step plainPlatform) {} inMemoryAndLog).engine = some e ∧
      putRow ⟨(Runs.run (step plainPlatform) {} inMemoryAndLog).disk, e⟩ ⟨2⟩ tenBytes = .ok s' ∧
      snapshotDue s' = true ∧ e.index.tableIndexes = [] ∧ s'.engine.index.tableIndexes = [] ∧
      s'.engine.segmentId = 0 ∧
      (serializeAll s'.engine.memTable.createSortedStringsTable.rows).length < 2 ^ 32 ∧
      (close s').wal = some (serializeAll [⟨⟨1⟩, .single 97, .Put, (0, 0)⟩,
        ⟨⟨2⟩, tenBytes, .Put, (0, 0)⟩]) ∧
      e.memTable = ({} : MemTable).setWriteAheadLog.writeRow ⟨⟨1⟩, .single 97, .Put, (0, 0)⟩ ∧
      SSTableIndex.tornKey ((snapshotTable s').entries plainPlatform) 23
        ∈ (SSTableIndex.wholeEntries ((snapshotTable s').entries plainPlatform) 23).map Prod.fst :=
  ⟨_, _, rfl, rfl, rfl, rfl, rfl, rfl, by decide +kernel, rfl, rfl, by decide +kernel⟩

/-- A crash behind the first entry of the index file. -/
theorem survivesCrash_inMemoryAndLog :
    ∃ e s', (Runs.run (step plainPlatform) {} inMemoryAndLog).engine = some e ∧
      putRow ⟨(Runs.run (step plainPlatform) {} inMemoryAndLog).disk, e⟩ ⟨2⟩ tenBytes = .ok s' ∧
      SurvivesCrash plainPlatform ⟨(Runs.run (step plainPlatform) {} inMemoryAndLog).disk, e⟩ s' ⟨2⟩
        (.index 23) := by
  obtain ⟨e, s', hengine, hrow, hdue, htables, htables', hsegmentId, hsmall, hwal, hmemTable, htorn⟩ :=
    store_inMemoryAndLog
  refine ⟨e, s', hengine, hrow, ?_⟩
  apply survivesCrash_of_meets plainPlatform inMemoryAndLog ?_ ?_ e hengine ⟨2⟩ tenBytes s' hrow hdue
  · refine ⟨⟨?_, by rw [hsegmentId]; decide, rowsFit_of_length hsmall, by omega⟩, ?_⟩
    · intro t ht
      rw [htables'] at ht
      cases ht
    · refine ⟨_, (congrArg (replayLog plainPlatform) hwal).trans
        (MemTable.restoreFromLog_rows plainPlatform {} (List.cons_ne_nil _ _)), ?_⟩
      intro key hkey
      rw [get_insertAll, lastRow_cons, lastRow_cons, lastRow_nil, Option.none_or, if_neg hkey.symm,
        Option.none_or]
      by_cases hone : (⟨1⟩ : Key) = key
      · rw [if_pos hone]
        exact Or.inl (Option.some_ne_none _)
      · have hnone : e.memTable.findRow key = none := by
          rw [hmemTable, MemTable.findRow_writeRow, if_neg hone]
          rfl
        refine Or.inr ⟨Or.inl ?_, ?_, ?_, ?_⟩
        · show e.memTable.get key = none
          rw [MemTable.get_eq, hnone]
          rfl
        · intro hint hget
          unfold Index.get at hget
          rw [htables] at hget
          cases hget
        · intro _ row hfind
          rw [hnone] at hfind
          cases hfind
        · rintro - rfl
          exact Or.inl htorn
  · intro event hevent
    rcases List.mem_pair.mp hevent with rfl | rfl <;> trivial
  · refine ⟨trivial, ?_, trivial⟩
    rintro e ⟨⟩
    refine ⟨?_, ?_⟩
    · intro s hrow hdue
      cases hrow
      exact absurd hdue (by decide)
    · intro s hrow hdue
      cases hrow
      exact absurd hdue (by decide)

/-- The directory is closed and opened again: the value is in the memtable, and no longer in the log. -/
def inMemoryOnly : List Event := inMemoryAndLog ++ [.close, .open plainOptions]

/-- A crash while the segment file of the next put is written: key 1 is lost. -/
theorem not_survivesCrash_inMemoryOnly :
    ∃ e s', (Runs.run (step plainPlatform) {} inMemoryOnly).engine = some e ∧
      putRow ⟨(Runs.run (step plainPlatform) {} inMemoryOnly).disk, e⟩ ⟨2⟩ tenBytes = .ok s' ∧
      snapshotDue s' = true ∧
      ¬ SurvivesCrash plainPlatform ⟨(Runs.run (step plainPlatform) {} inMemoryOnly).disk, e⟩ s' ⟨2⟩
        (.segment 5) := by
  obtain ⟨e, s', hengine, hrow, hdue, hbefore, lost, hlost, hafter⟩ : ∃ e s',
      (Runs.run (step plainPlatform) {} inMemoryOnly).engine = some e ∧
      putRow ⟨(Runs.run (step plainPlatform) {} inMemoryOnly).disk, e⟩ ⟨2⟩ tenBytes = .ok s' ∧
      snapshotDue s' = true ∧
      get plainPlatform ⟨(Runs.run (step plainPlatform) {} inMemoryOnly).disk, e⟩ ⟨1⟩
        = .ok (some (.single 97)) ∧
      ∃ lost : Store, «open» plainPlatform {} plainOptions {} (crashDisk plainPlatform s' (.segment 5))
          = (lost.disk, .ok lost.engine) ∧
        get plainPlatform lost ⟨1⟩ = .ok none :=
    ⟨_, _, rfl, rfl, rfl, by decide +kernel, ⟨_, _⟩, rfl, by decide +kernel⟩
  refine ⟨e, s', hengine, hrow, hdue, ?_⟩
  intro h
  obtain ⟨s'', hopen, hkeys⟩ := h plainOptions
  have hkept := (hkeys ⟨1⟩ (by decide)).1 _ hbefore
  rw [hlost] at hopen
  have heq : lost = s'' := by
    cases lost
    cases s''
    cases hopen
    rfl
  rw [← heq, hafter] at hkept
  cases hkept

end OmxDb
