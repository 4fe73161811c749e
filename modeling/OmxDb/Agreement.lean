import OmxDb.SoundHistory

/-!
# The index and the segments

Every entry of the index leads to the row the snapshot wrote for its key. The index names a segment by its
number, so all depends on no number being used twice: numbers start from zero in every session, and
`indexAgrees_of_meets` needs the counter to be past the registered ids whenever a snapshot is taken.
-/

namespace OmxDb

open StorageEngine

/-! ### Statements -/

/-- Every entry of the index leads into a segment file, to the row that the one snapshot with this number
wrote for the key. -/
def IndexAgrees (P : Platform) (w : World) : Prop :=
  ∀ e, w.engine = some e → ∀ key hint, e.index.get key = some hint →
    ∃ table row bytes, (hint.fileId.toNat, table) ∈ w.snapshots ∧
      (∀ table', (hint.fileId.toNat, table') ∈ w.snapshots → table' = table) ∧
      row ∈ table.rows ∧ row.key = key ∧
      w.disk.segment (segmentFile hint.fileId.toNat) = some bytes ∧
      hint.offset.toNat + hint.size.toNat ≤ bytes.length ∧
      deserialize P (IStream.ofBytes ((bytes.drop hint.offset.toNat).take hint.size.toNat))
        = .ok (row, IStream.ofBytes [])

/-- A put leaves the file of every registered segment alone and does not fail on a registered id. -/
def PutKeepsSegments (P : Platform) (w : World) : Event → Prop
  | .put opened key value => ∀ e, w.engine = some e →
      (∀ t ∈ e.index.tableIndexes, (step P w (.put opened key value)).disk.segment
          (segmentFile t.fileId.toNat) = w.disk.segment (segmentFile t.fileId.toNat)) ∧
        (put P opened ⟨w.disk, e⟩ key value).2 ≠ .error (.runtimeError "file id is already indexed")
  | _ => True

/-- A snapshot writes less than `2 ^ 32` bytes. -/
def SnapshotSmall (w : World) : Event → Prop
  | .put _ key value => ∀ e s, w.engine = some e → putRow ⟨w.disk, e⟩ key value = .ok s →
      snapshotDue s = true → s.engine.memTable.dump.length < 2 ^ 32
  | _ => True

/-- The segment counter is past every registered file id and has not left its 32 bits. -/
def CounterAhead (e : StorageEngine) : Prop :=
  e.segmentId < 2 ^ 32 ∧ ∀ t ∈ e.index.tableIndexes, t.fileId.toNat < e.segmentId

/-- A snapshot finds the segment counter past every registered id, and an open finds no index file without an
entry. -/
def NumbersFresh (w : World) : Event → Prop
  | .open _ => w.engine = none → IndexFilesHaveEntries w.disk
  | .put _ key value => ∀ e s, w.engine = some e → putRow ⟨w.disk, e⟩ key value = .ok s →
      snapshotDue s = true → CounterAhead e
  | _ => True

/-! ### Faults of a put -/

theorem message_ne {head tail : String} (h : head.toList.head? ≠ some 'f') (hne : head ≠ "") :
    head ++ tail ≠ "file id is already indexed" := by
  intro heq
  have hlist := congrArg (fun text => text.toList.head?) heq
  simp only [String.toList_append] at hlist
  cases hhead : head.toList with
  | nil => exact hne (String.toList_eq_nil_iff.mp hhead)
  | cons c cs =>
    rw [hhead] at h hlist
    exact h hlist

theorem compress_ne_indexed (P : Platform) (compressionType : CompressionType) (value : ByteString) :
    (createCompressor P compressionType).compress value
      ≠ .error (.runtimeError "file id is already indexed") := by
  have hofBytes : ∀ bytes, ByteString.ofBytes bytes ≠ .error (.runtimeError "file id is already indexed") := by
    intro bytes
    unfold ByteString.ofBytes
    split <;> simp
  unfold createCompressor
  split_ifs
  · simp [NoCompression]
  · exact hofBytes _
  · dsimp only [LZ4CompressionAdapter, LZ4CompressionAdapter.compress]
    split_ifs
    · rw [Ne, Except.error.injEq, Fault.runtimeError.injEq]
      exact message_ne (by decide) (by decide)
    · rw [Ne, Except.error.injEq, Fault.runtimeError.injEq, String.append_assoc]
      exact message_ne (by decide) (by decide)
    · exact hofBytes _
  · simp [NoCompression]

theorem putRow_ne_indexed {P : Platform} {s : Store} {segs : List Segment} (h : Sound P s segs) (key : Key)
    (value : ByteString) : putRow s key value ≠ .error (.runtimeError "file id is already indexed") := by
  unfold putRow
  rw [h.compressor]
  dsimp only
  have hcompress := compress_ne_indexed P s.engine.opts.compressionType value
  split
  next fault heq => rw [heq] at hcompress; simpa using hcompress
  next => split <;> simp

/-! ### The invariant -/

/-- The segments are the recorded snapshots. -/
def Recorded (segs : List Segment) (snapshots : List (Nat × SSTable)) : Prop :=
  ∀ snapshot, snapshot ∈ snapshots ↔ ∃ seg ∈ segs, snapshot = (seg.fileId.toNat, ⟨seg.rows⟩)

theorem Recorded.perm {segs segs' : List Segment} {snapshots : List (Nat × SSTable)}
    (h : Recorded segs snapshots) (hperm : segs'.Perm segs) : Recorded segs' snapshots := by
  intro snapshot
  simp only [h snapshot, hperm.mem_iff]

def HistoryInv (P : Platform) (w : World) : Prop :=
  ∃ segs, SoundWorld P w segs ∧ Recorded segs w.snapshots

theorem HistoryInv.indexAgrees {P : Platform} {w : World} (h : HistoryInv P w) : IndexAgrees P w := by
  obtain ⟨segs, hworld, hrecorded⟩ := h
  intro e hengine key hint hget
  cases hworld with
  | closed => cases hengine
  | opened hsound _ =>
    cases hengine
    unfold Index.get at hget
    rcases getLoop_segments (hsound.at key).index with ⟨-, hloop⟩ |
      ⟨seg, hseg, row, fileHint, -, hfind, hhint, hloop⟩
    · rw [hloop] at hget
      cases hget
    · rw [hloop] at hget
      cases hget
      obtain ⟨fileHint', hhint', hle, hslice⟩ := Segment.slice_of_find hfind
      rw [hhint] at hhint'
      cases hhint'
      refine ⟨⟨seg.rows⟩, row, seg.bytes, (hrecorded _).mpr ⟨seg, hseg, rfl⟩, ?_,
        Segment.mem_of_find hfind, Segment.key_of_find hfind, hsound.files seg hseg, hle, ?_⟩
      · intro table' htable'
        obtain ⟨seg', hseg', heq⟩ := (hrecorded _).mp htable'
        have hid : seg.fileId = seg'.fileId := UInt32.toNat_inj.mp (congrArg Prod.fst heq)
        have hsame : seg = seg' := List.inj_on_of_nodup_map
          (List.pairwise_map.mpr hsound.persisted.distinct) hseg hseg' hid
        rw [hsame]
        exact congrArg Prod.snd heq
      · dsimp only
        rw [hslice]
        have hread := deserialize_serialize P row []
        rw [List.append_nil] at hread
        exact hread

theorem snapshotFresh_of {w : World} {disk : Disk} {e : StorageEngine} {opened : SnapshotStreams} {key : Key}
    {value : ByteString} (hdisk : w.disk = disk) (hengine : w.engine = some e)
    (hsmall : SnapshotSmall w (.put opened key value)) (hfresh : NumbersFresh w (.put opened key value)) :
    SnapshotFresh ⟨disk, e⟩ key value := by
  subst hdisk
  intro s' hrow hdue
  have hahead : CounterAhead s'.engine := by
    rcases putRow_cases ⟨w.disk, e⟩ key value with ⟨fault, hfault⟩ | ⟨row, -, -, hrow'⟩
    · rw [hfault] at hrow
      cases hrow
    · rw [hrow] at hrow'
      cases hrow'
      exact hfresh e _ hengine hrow hdue
  refine ⟨hahead.1, fun t ht => ne_of_lt (hahead.2 t ht), rowsFit_of_length ?_⟩
  rw [← MemTable.dump_eq]
  exact hsmall e s' hengine hrow hdue

theorem HistoryInv.step {P : Platform} {w : World} {event : Event} (h : HistoryInv P w)
    (hopened : event.Succeeds) (hsmall : SnapshotSmall w event) (hfresh : NumbersFresh w event) :
    HistoryInv P (step P w event) := by
  obtain ⟨segs, hworld, hrecorded⟩ := h
  by_cases hput : ∃ opened key value, event = .put opened key value
  · obtain ⟨opened, key, value, rfl⟩ := hput
    cases hopened
    cases hworld with
    | closed hpersisted hoptions hwal => exact ⟨segs, .closed hpersisted hoptions hwal, hrecorded⟩
    | @opened disk e snapshots _ logged hsound hlog =>
      rcases hsound.put_cases (snapshotFresh_of rfl rfl hsmall hfresh) with ⟨fault, -, hput, hsnapshot⟩ |
        ⟨row, -, -, -, ⟨hput, hsnapshot⟩ |
          ⟨fits, s', -, hput, hsound', hword, hmemTable, -, hsnapshot⟩⟩
      · rw [step_put hput, hsnapshot]
        exact ⟨segs, .opened hsound hlog, hrecorded⟩
      · rw [step_put hput, hsnapshot]
        exact ⟨segs, .opened (hsound.withMemTable _) (hlog.writeRow row), hrecorded⟩
      · rw [step_put hput, hsnapshot]
        refine ⟨Segment.ofMemTable (e.memTable.writeRow row) e.segmentId fits :: segs,
          .opened hsound' (hmemTable ▸ (hlog.writeRow row).clear), ?_⟩
        intro snapshot
        have hid : (UInt32.ofNat e.segmentId).toNat = e.segmentId := UInt32.toNat_ofNat_of_lt hword
        have hold := hrecorded snapshot
        simp only [Option.toList_some, List.singleton_append, List.mem_cons, exists_eq_or_imp,
          Segment.ofMemTable, hid] at hold ⊢
        rw [hold]
  · obtain ⟨segs', hperm, hworld', hsnapshots⟩ := hworld.step_other
      (fun opened key value heq => hput ⟨opened, key, value, heq⟩) (by
        rintro options rfl hengine
        cases hworld with
        | closed hpersisted _ _ => exact rows_ne_nil hpersisted (hfresh rfl)
        | opened => cases hengine)
    exact ⟨segs', hworld', hsnapshots ▸ hrecorded.perm hperm⟩

theorem HistoryInv.putKeepsSegments {P : Platform} {w : World} {event : Event} (h : HistoryInv P w)
    (hopened : event.Succeeds) (hsmall : SnapshotSmall w event) (hfresh : NumbersFresh w event) :
    PutKeepsSegments P w event := by
  obtain ⟨segs, hworld, -⟩ := h
  cases event with
  | put opened key value =>
    cases hopened
    intro e hengine
    cases hworld with
    | closed => cases hengine
    | @opened disk e' snapshots _ logged hsound hlog =>
      cases hengine
      rcases hsound.put_cases (snapshotFresh_of rfl rfl hsmall hfresh) with ⟨fault, hrow, hput, -⟩ |
        ⟨row, -, -, -, ⟨hput, -⟩ | ⟨fits, s', -, hput, hsound', -, -, -, -⟩⟩
      · rw [step_put hput, hput]
        refine ⟨fun t ht => rfl, ?_⟩
        intro heq
        cases heq
        exact putRow_ne_indexed hsound key value hrow
      · rw [step_put hput, hput]
        exact ⟨fun t ht => rfl, by simp⟩
      · rw [step_put hput, hput]
        refine ⟨?_, by simp⟩
        intro t ht
        obtain ⟨seg, hseg, hid⟩ := hsound.fileId_mem.mp ⟨t, ht, rfl⟩
        rw [← hid]
        exact (hsound'.files seg (List.mem_cons_of_mem _ hseg)).trans (hsound.files seg hseg).symm
  | _ => trivial

/-- In a history whose snapshots all find a fresh number, with less than `2 ^ 32` bytes each, index and
segments agree in every state, and no put touches a registered segment or fails on a registered id. -/
theorem indexAgrees_of_meets (P : Platform) (events : List Event)
    (hopened : ∀ event ∈ events, event.Succeeds) (hsmall : Runs.Meets (step P) SnapshotSmall {} events)
    (hfresh : Runs.Meets (step P) NumbersFresh {} events) :
    Runs.Meets (step P) (fun w event => IndexAgrees P (step P w event) ∧ PutKeepsSegments P w event)
      {} events := by
  have hmeets := (Runs.Meets.of_forall (step P) {} hopened).and (hsmall.and hfresh)
  refine Runs.Meets.of_inv (HistoryInv P) ?_ ?_ hmeets ?_
  · rintro w event hinv ⟨h, h', h''⟩
    exact hinv.step h h' h''
  · rintro w event hinv ⟨h, h', h''⟩
    exact ⟨(hinv.step h h' h'').indexAgrees, hinv.putKeepsSegments h h' h''⟩
  · refine ⟨[], soundWorld_empty P, ?_⟩
    intro snapshot
    simp

/-- A session with a snapshot. -/
def oneSnapshot : List Event := [.open plainOptions, .put {} ⟨1⟩ (.single 97)]

/-- Another snapshot in that session, and an open that loads both. -/
def twoSnapshots : List Event := oneSnapshot ++ [.put {} ⟨2⟩ (.single 98), .close, .open plainOptions]

theorem indexAgrees_twoSnapshots :
    Runs.Meets (step plainPlatform) (fun w event => IndexAgrees plainPlatform (step plainPlatform w event) ∧
      PutKeepsSegments plainPlatform w event) {} twoSnapshots := by
  have hsucceeds : ∀ event ∈ twoSnapshots, event.Succeeds := by
    simp [twoSnapshots, oneSnapshot, Event.Succeeds]
  refine indexAgrees_of_meets plainPlatform twoSnapshots hsucceeds ?_ ?_
  · refine ⟨trivial, ?_, ?_, trivial, trivial, trivial⟩
    · rintro e s ⟨⟩ hrow -
      cases hrow
      decide
    · rintro e s ⟨⟩ hrow -
      cases hrow
      decide
  · refine ⟨?_, ?_, ?_, trivial, ?_, trivial⟩
    · rintro - dir name bytes ⟨⟩
    · rintro e s ⟨⟩ - -
      refine ⟨by decide, ?_⟩
      intro t ht
      cases ht
    · rintro e s ⟨⟩ - -
      exact ⟨by decide, by decide⟩
    · exact fun _ => indexFilesHaveEntries_of rfl (by decide)

/-- One session with a snapshot, one that only opens and closes, and one with a snapshot again. -/
def threeSessions : List Event :=
  oneSnapshot ++ [.close, .open plainOptions, .close, .open plainOptions, .put {} ⟨2⟩ (.single 98)]

/-- The third session rewrites segment 0, and the index entry of key 1 leads to the row of another key. -/
theorem not_indexAgrees_threeSessions :
    ¬ IndexAgrees plainPlatform (Runs.run (step plainPlatform) {} threeSessions) := by
  intro h
  obtain ⟨e, hengine, hget⟩ : ∃ e, (Runs.run (step plainPlatform) {} threeSessions).engine = some e ∧
      e.index.get ⟨1⟩ = some ⟨0, 0, 36⟩ := ⟨_, rfl, rfl⟩
  obtain ⟨table, row, bytes, -, -, -, hkey, hfile, -, hread⟩ := h e hengine ⟨1⟩ _ hget
  have hbytes : (Runs.run (step plainPlatform) {} threeSessions).disk.segment
      (segmentFile (UInt32.toNat 0)) = some (serializeAll [MemTable.phantomRow plainPlatform,
        ⟨⟨2⟩, .single 98, .Put, (0, 0)⟩]) := rfl
  rw [hbytes] at hfile
  cases hfile
  have hphantom : deserialize plainPlatform (IStream.ofBytes
      (((serializeAll [MemTable.phantomRow plainPlatform, ⟨⟨2⟩, .single 98, .Put, (0, 0)⟩]).drop
        (UInt32.toNat 0)).take (UInt32.toNat 36)))
      = .ok (MemTable.phantomRow plainPlatform, IStream.ofBytes [0]) := rfl
  have hrow : MemTable.phantomRow plainPlatform = row :=
    congrArg Prod.fst (Except.ok.inj (hphantom.symm.trans hread))
  rw [← hrow] at hkey
  exact absurd hkey (by decide)

end OmxDb
