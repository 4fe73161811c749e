import OmxDb.SoundHistory

/-!
# Puts whose snapshot files do not open

A snapshot clears the memtable before it knows whether the filter file and the index file open, and never
looks at whether the segment file did. `putSafe_of_meets` gives the condition under which the keys are still
answered: either all files open and the rows are written and registered, or the filter or index file fails
and the memtable held nothing that the segments do not answer as well.
-/

namespace OmxDb

open StorageEngine

/-! ### Statements -/

/-- The rows of the memtable are written and registered, the value comes back, and a tombstone of another key
hides nothing of the segments. -/
structure SnapshotLands (P : Platform) (s s' : Store) (key : Key) (value : ByteString) : Prop where
  word : s'.engine.segmentId < 2 ^ 32
  free : NumberFree s'.engine
  fits : RowsFit s'.engine.memTable.createSortedStringsTable.rows
  ordinary : s'.engine.memTable.HasOrdinaryKey
  givesBack : GivesBack s.engine value
  tombstones : ∀ key', key' ≠ key → ∀ row, s.engine.memTable.findRow key' = some row →
    row.entryType = .Remove → findOnDisk P s key' = .ok none

/-- The filter or the index file does not open, no segment is overwritten, and the segments answer what the
memtable answers; for the key of the put they may also have the new row. -/
structure SnapshotFails (P : Platform) (opened : SnapshotStreams) (s s' : Store) (key : Key)
    (value : ByteString) : Prop where
  fails : opened.bloom = false ∨ opened.index = false
  free : opened.segment = true → NumberFree s'.engine
  others : ∀ key', key' ≠ key → s.engine.memTable.get key' = none ∨
    findOnDisk P s key' = .ok (s.engine.memTable.get key')
  same : s.engine.memTable.get key = none ∨ findOnDisk P s key = .ok (s.engine.memTable.get key) ∨
    GivesBack s.engine value ∧ findOnDisk P s key = .ok (s'.engine.memTable.get key)

/-- A snapshot that the put takes lands, or fails where the memtable holds nothing of its own. -/
def FaultsSafe (P : Platform) (w : World) : Event → Prop
  | .put opened key value => ∀ e s', w.engine = some e → putRow ⟨w.disk, e⟩ key value = .ok s' →
      snapshotDue s' = true → opened = {} ∧ SnapshotLands P ⟨w.disk, e⟩ s' key value ∨
        SnapshotFails P opened ⟨w.disk, e⟩ s' key value
  | _ => True

/-- Other keys are answered as before, the key of the put with the old outcome or the new value. -/
def KeepsAnswers (P : Platform) (s s' : Store) (key : Key) (value : ByteString) : Prop :=
  (∀ key', key' ≠ key → get P s' key' = get P s key') ∧
    (get P s' key = get P s key ∨ get P s' key = .ok (some value))

/-- A put that takes a snapshot, returned or thrown, keeps the answers; so does `handle`, which answers Ok or
UnknownError. -/
def PutSafe (P : Platform) (w : World) : Event → Prop
  | .put opened key value => ∀ e s', w.engine = some e → putRow ⟨w.disk, e⟩ key value = .ok s' →
      snapshotDue s' = true →
      KeepsAnswers P ⟨w.disk, e⟩ (put P opened ⟨w.disk, e⟩ key value).1 key value ∧
      KeepsAnswers P ⟨w.disk, e⟩ (handle P opened ⟨w.disk, e⟩ (Request.make .Put key value)).1 key value ∧
      ∃ response, (handle P opened ⟨w.disk, e⟩ (Request.make .Put key value)).2 = .ok response ∧
        (response.responseStatus = .Ok ∨ response.responseStatus = .UnknownError)
  | _ => True

/-! ### One put -/

theorem handle_put (P : Platform) (opened : SnapshotStreams) (s : Store) (key : Key) (value : ByteString)
    {s' : Store} {result : Except Fault Unit} (h : put P opened s key value = (s', result))
    (hresult : ∀ fault, result = .error fault → fault.isException = true) :
    (handle P opened s (Request.make .Put key value)).1 = s' ∧
      ∃ response, (handle P opened s (Request.make .Put key value)).2 = .ok response ∧
        (response.responseStatus = .Ok ∨ response.responseStatus = .UnknownError) := by
  unfold handle Request.make
  dsimp only
  rw [if_neg (by decide), if_pos rfl, h]
  cases result with
  | ok => exact ⟨rfl, _, rfl, Or.inl rfl⟩
  | error fault =>
    dsimp only [catchException]
    rw [if_pos (hresult fault rfl)]
    exact ⟨rfl, _, rfl, Or.inr rfl⟩

section answers

variable {P : Platform} {s s' : Store} {segs segs' : List Segment} {key : Key} {value : ByteString}
  {row : SSTableRow}

theorem get_cleared (hsound' : Sound P s' segs') (hsound : Sound P s segs)
    (hopts : s'.engine.opts = s.engine.opts) {m : MemTable} (hmemTable : s'.engine.memTable = m.clear)
    (key : Key) : get P s' key = finishGet s.engine ((newestRow segs' key).bind visible) := by
  rw [get_eq (hsound'.at key), hsound.finishGet_eq hsound' hopts]
  unfold found
  rw [hmemTable, MemTable.findRow_clear, Option.bind_none, Option.none_or]

/-- A snapshot that lands keeps the answers. -/
theorem keepsAnswers_of_lands (hsound : Sound P s segs) (hrow : putRow s key value = .ok s')
    (h : SnapshotLands P s s' key value) :
    ∃ s'' fits, makeSnapshot P {} s' = (s'', .ok ()) ∧
      Sound P s'' (Segment.ofMemTable s'.engine.memTable s'.engine.segmentId fits :: segs) ∧
      KeepsAnswers P s s'' key value := by
  obtain ⟨row, rfl, rfl, hfound⟩ := exists_row_of_putRow hrow h.givesBack
  obtain ⟨s'', hrun, hsound', hmemTable, hopts, -⟩ :=
    makeSnapshot_success (hsound.write row) h.word h.free h.fits
  have hget := get_cleared hsound' hsound hopts hmemTable
  have hnewest : ∀ key', newestRow (Segment.ofMemTable (s.write row).engine.memTable
      (s.write row).engine.segmentId h.fits :: segs) key'
        = ((s.engine.memTable.writeRow row).findRow key').or (newestRow segs key') :=
    newestRow_snapshot h.ordinary segs
  refine ⟨s'', h.fits, hrun, hsound', ?_, ?_⟩
  · intro key' hne
    rw [hget, hnewest, get_eq (hsound.at key'), MemTable.findRow_writeRow, if_neg (Ne.symm hne)]
    congr 1
    unfold found
    cases hfind : s.engine.memTable.findRow key' with
    | none => rfl
    | some old =>
      rw [Option.some_or, Option.bind_some]
      cases hvisible : visible old with
      | some value => rfl
      | none =>
        -- a tombstone: the segments have nothing that it would hide
        have hdisk := h.tombstones key' hne old hfind (visible_eq_none_iff.mp hvisible)
        rw [findOnDisk_eq (hsound.at key'), Except.ok.injEq] at hdisk
        rw [hdisk]
        rfl
  · refine Or.inr ?_
    rw [hget, hnewest, MemTable.findRow_writeRow, if_pos rfl, Option.some_or, Option.bind_some, hfound]

/-- A snapshot that fails keeps the answers where the memtable held nothing of its own. -/
theorem keepsAnswers_of_fails {opened : SnapshotStreams} (hsound : Sound P s segs)
    (hrow : putRow s key value = .ok s') (h : SnapshotFails P opened s s' key value) :
    ∃ s'' what, makeSnapshot P opened s' = (s'', .error (.runtimeError what)) ∧ Sound P s'' segs ∧
      KeepsAnswers P s s'' key value := by
  obtain ⟨fault, hfault⟩ | ⟨row, -, -, hwrite⟩ := putRow_cases s key value
  · rw [hfault] at hrow
    cases hrow
  rw [hwrite, Except.ok.injEq] at hrow
  subst hrow
  obtain ⟨s'', what, hrun, hsound', hmemTable, hopts⟩ :=
    makeSnapshot_failure (hsound.write row) h.free h.fails
  have hget := get_cleared hsound' hsound hopts hmemTable
  -- where the segments answer what the memtable answers, losing the memtable changes nothing
  have hkept : ∀ key', (s.engine.memTable.get key' = none ∨
      findOnDisk P s key' = .ok (s.engine.memTable.get key')) → get P s'' key' = get P s key' := by
    intro key' hdisk
    rw [findOnDisk_eq (hsound.at key'), Except.ok.injEq] at hdisk
    rw [hget, get_eq (hsound.at key')]
    unfold found
    rw [← MemTable.get_eq]
    rcases hdisk with hnone | heq
    · rw [hnone, Option.none_or]
    · rw [heq, Option.or_self]
  refine ⟨s'', what, hrun, hsound', fun key' hne => hkept key' (h.others key' hne), ?_⟩
  rcases h.same with hnone | heq | ⟨hback, heq⟩
  · exact Or.inl (hkept key (Or.inl hnone))
  · exact Or.inl (hkept key (Or.inr heq))
  · refine Or.inr ?_
    obtain ⟨row', hkey, hwrite', hfound⟩ := exists_row_of_putRow hwrite hback
    have heq' : (s.write row).engine.memTable.get key = visible row' := by
      rw [hwrite', MemTable.get_eq]
      show ((s.engine.memTable.writeRow row').findRow key).bind visible = _
      rw [MemTable.findRow_writeRow, if_pos hkey, Option.bind_some]
    rw [findOnDisk_eq (hsound.at key), Except.ok.injEq, heq'] at heq
    rw [hget, heq, hfound]

end answers

/-! ### Runs -/

/-- The world stands for segments with rows. -/
def SegmentsInv (P : Platform) (w : World) : Prop :=
  ∃ segs, (∀ seg ∈ segs, seg.rows ≠ []) ∧ SoundWorld P w segs

section put

variable {P : Platform} {w : World} {opened : SnapshotStreams} {key : Key} {value : ByteString}

theorem SegmentsInv.step_put (h : SegmentsInv P w) (hsafe : FaultsSafe P w (.put opened key value)) :
    SegmentsInv P (step P w (.put opened key value)) := by
  obtain ⟨segs, hrows, hworld⟩ := h
  cases hworld with
  | closed persisted options wal => exact ⟨segs, hrows, .closed persisted options wal⟩
  | @opened disk e snapshots _ logged hsound hlog =>
    rcases put_cases P opened ⟨disk, e⟩ key value with ⟨fault, -, hput, -⟩ |
      ⟨row, -, -, hrow, ⟨-, hput, -⟩ | ⟨hdue, hput, -⟩⟩
    · rw [OmxDb.step_put hput]
      exact ⟨segs, hrows, .opened hsound hlog⟩
    · rw [OmxDb.step_put hput]
      exact ⟨segs, hrows, .opened (hsound.write row) (hlog.writeRow row)⟩
    · have hcleared := memTable_makeSnapshot P opened (Store.write ⟨disk, e⟩ row)
      have hlogged := (hlog.writeRow row).clear
      rcases hsafe e _ rfl hrow hdue with ⟨rfl, hlands⟩ | hfails
      · obtain ⟨s'', fits, hrun, hsound', -⟩ := keepsAnswers_of_lands hsound hrow hlands
        rw [hrun] at hcleared
        rw [OmxDb.step_put (hput.trans hrun)]
        refine ⟨_ :: segs, ?_, .opened hsound' (hcleared ▸ hlogged)⟩
        intro seg hseg
        rcases List.mem_cons.mp hseg with rfl | hseg
        · exact MemTable.sortedStringsTable_ne_nil hlands.ordinary
        · exact hrows seg hseg
      · obtain ⟨s'', what, hrun, hsound', -⟩ := keepsAnswers_of_fails hsound hrow hfails
        rw [hrun] at hcleared
        rw [OmxDb.step_put (hput.trans hrun)]
        exact ⟨segs, hrows, .opened hsound' (hcleared ▸ hlogged)⟩

theorem SegmentsInv.putSafe (h : SegmentsInv P w) (hsafe : FaultsSafe P w (.put opened key value)) :
    PutSafe P w (.put opened key value) := by
  intro e s' hengine hrow hdue
  obtain ⟨segs, -, hworld⟩ := h
  cases hworld with
  | closed => cases hengine
  | @opened disk e' snapshots _ logged hsound hlog =>
    cases hengine
    have hput : StorageEngine.put P opened ⟨disk, e⟩ key value = makeSnapshot P opened s' := by
      unfold StorageEngine.put
      rw [hrow]
      exact if_pos hdue
    -- the outcome of the snapshot, for the put and for `handle` alike
    obtain ⟨s'', result, hrun, hresult, hkeeps⟩ : ∃ s'' result, makeSnapshot P opened s' = (s'', result) ∧
        (∀ fault, result = .error fault → fault.isException = true) ∧
        KeepsAnswers P ⟨disk, e⟩ s'' key value := by
      rcases hsafe e s' rfl hrow hdue with ⟨rfl, hlands⟩ | hfails
      · obtain ⟨s'', -, hrun, -, hkeeps⟩ := keepsAnswers_of_lands hsound hrow hlands
        exact ⟨s'', _, hrun, by simp, hkeeps⟩
      · obtain ⟨s'', what, hrun, -, hkeeps⟩ := keepsAnswers_of_fails hsound hrow hfails
        refine ⟨s'', _, hrun, ?_, hkeeps⟩
        rintro fault ⟨⟩
        rfl
    obtain ⟨hstore, hresponse⟩ := handle_put P opened ⟨disk, e⟩ key value (hput.trans hrun) hresult
    rw [hstore, hput, hrun]
    exact ⟨hkeeps, hkeeps, hresponse⟩

end put

theorem SegmentsInv.step {P : Platform} {w : World} {event : Event} (h : SegmentsInv P w)
    (hsafe : FaultsSafe P w event) : SegmentsInv P (step P w event) := by
  by_cases hput : ∃ opened key value, event = .put opened key value
  · obtain ⟨opened, key, value, rfl⟩ := hput
    exact h.step_put hsafe
  · obtain ⟨segs, hrows, hworld⟩ := h
    obtain ⟨segs', hperm, hworld', -⟩ := hworld.step_other
      (fun opened key value heq => hput ⟨opened, key, value, heq⟩) (fun _ _ _ => hrows)
    refine ⟨segs', ?_, hworld'⟩
    intro seg hseg
    exact hrows seg (hperm.mem_iff.mp hseg)

/-- In a history whose snapshots land, or fail where the memtable holds nothing of its own, every put that
takes a snapshot is safe. -/
theorem putSafe_of_meets (P : Platform) (events : List Event)
    (hsafe : Runs.Meets (step P) (FaultsSafe P) {} events) :
    Runs.Meets (step P) (PutSafe P) {} events := by
  refine Runs.Meets.of_inv (SegmentsInv P) (fun w event h hcond => h.step hcond) ?_ hsafe ?_
  · intro w event h hcond
    cases event with
    | put opened key value => exact h.putSafe hcond
    | _ => trivial
  · exact ⟨[], by simp, soundWorld_empty P⟩

/-- A snapshot that lands, and one whose filter file does not open while the memtable holds nothing else. -/
def landThenFail : List Event :=
  [.open plainOptions, .put {} ⟨1⟩ (.single 97),
    .put { bloom := false } ⟨2⟩ (.single 98)]

theorem store_landThenFail :
    ∃ e, (Runs.run (step plainPlatform) {} (landThenFail.take 2)).engine = some e ∧
      e.memTable = (({} : MemTable).setWriteAheadLog.writeRow
        ⟨⟨1⟩, .single 97, .Put, (0, 0)⟩).clear ∧
      e.segmentId = 1 ∧ e.index.tableIndexes.map SSTableIndex.fileId = [0] :=
  ⟨_, rfl, rfl, rfl, rfl⟩

theorem putSafe_landThenFail :
    Runs.Meets (step plainPlatform) (PutSafe plainPlatform) {} landThenFail := by
  apply putSafe_of_meets
  refine ⟨trivial, ?_, ?_, trivial⟩
  · rintro e s' ⟨⟩ hrow -
    cases hrow
    refine Or.inl ⟨rfl, ⟨by decide, ?_, rowsFit_of_length (by decide), ⟨_, List.mem_singleton.mpr rfl,
      by decide⟩, ⟨NoCompression, _, rfl, rfl, rfl⟩, ?_⟩⟩
    · intro t ht
      cases ht
    · intro key' hne row hfind
      cases hfind
  · intro e s' hengine hrow _
    obtain ⟨e', hengine', hmemTable, hsegmentId, htables⟩ := store_landThenFail
    have heq : e = e' := Option.some_inj.mp (hengine.symm.trans hengine')
    subst heq
    have hget : ∀ key, e.memTable.get key = none := by
      intro key
      rw [hmemTable, MemTable.get_eq, MemTable.findRow_clear, Option.bind_none]
    obtain ⟨fault, hfault⟩ | ⟨row, -, -, hwrite⟩ := putRow_cases ⟨_, e⟩ ⟨2⟩ (.single 98)
    · rw [hfault] at hrow
      cases hrow
    · rw [hwrite, Except.ok.injEq] at hrow
      subst hrow
      refine Or.inr ⟨Or.inl rfl, ?_, fun key' _ => Or.inl (hget key'), Or.inl (hget ⟨2⟩)⟩
      intro _ t ht
      have hid : t.fileId ∈ e.index.tableIndexes.map SSTableIndex.fileId := List.mem_map_of_mem ht
      rw [htables, List.mem_singleton] at hid
      show t.fileId.toNat ≠ e.segmentId
      rw [hid, hsegmentId]
      decide

/-- A value is put, and the memtable keeps it. -/
def heldInMemory : List Event :=
  [.open { plainOptions with maxMemTableSize := 40 }, .put {} ⟨1⟩ (.single 97)]

/-- The next put takes a snapshot whose index file does not open: key 1 is lost. -/
theorem not_putSafe_heldInMemory :
    ¬ PutSafe plainPlatform (Runs.run (step plainPlatform) {} heldInMemory)
      (.put { index := false } ⟨2⟩ (.single 98)) := by
  intro h
  have hbefore : (Runs.run (step plainPlatform) {} heldInMemory).get plainPlatform ⟨1⟩
      = some (.ok (some (.single 97))) := by decide +kernel
  have hafter : (Runs.run (step plainPlatform) {} (heldInMemory ++
      [.put { index := false } ⟨2⟩ (.single 98)])).get plainPlatform ⟨1⟩ = some (.ok none) := by
    decide +kernel
  obtain ⟨e, s', hengine, hrow, hdue⟩ : ∃ e s',
      (Runs.run (step plainPlatform) {} heldInMemory).engine = some e ∧
      putRow ⟨(Runs.run (step plainPlatform) {} heldInMemory).disk, e⟩ ⟨2⟩ (.single 98) = .ok s' ∧
      snapshotDue s' = true := ⟨_, _, rfl, rfl, rfl⟩
  rw [Runs.run_append] at hafter
  generalize Runs.run (step plainPlatform) {} heldInMemory = w at *
  obtain ⟨disk, engine, snapshots⟩ := w
  cases hengine
  have hkept := (h e s' rfl hrow hdue).1.1 ⟨1⟩ (by decide)
  have hsame := (Option.some_inj.mp hafter).symm.trans (hkept.trans (Option.some_inj.mp hbefore))
  cases hsame

end OmxDb
