import OmxDb.SoundHistory

/-!
# Kills between calls

Rows reach the log file when the buffer of the stream is written, at the latest with the next snapshot. A process that
is killed between two calls leaves a log file with what was flushed and any part of the rest. Whatever that part is, the
directory is the one that the same history would have left, had it been closed cleanly at some earlier point after its
last snapshot, but for the bytes of one cut row at the end of the log (`killed_eq_closed_earlier`).
-/

namespace OmxDb

open StorageEngine

/-- The directory of a process that was killed. -/
def World.killed (w : World) (log : List UInt8) : Disk := { w.disk with wal := some log }

/-- The log of a clean close, and some bytes behind it. -/
def Disk.withTornLog (disk : Disk) (torn : List UInt8) : Disk :=
  { disk with wal := disk.wal.map fun bytes => bytes ++ torn }

/-- Bytes of a row, but not all of them. -/
def IsTorn (torn : List UInt8) : Prop := ∃ row, torn <+: serialize row ∧ torn ≠ serialize row

/-- A clean close at an earlier point leaves the same directory, but for a cut row. -/
def ClosedEarlier (P : Platform) (events : List Event) (w : World) (log : List UInt8) : Prop :=
  ∃ earlier torn, earlier <+: events ∧ IsTorn torn ∧
    (Runs.run (step P) {} (earlier ++ [.close])).engine = none ∧
    (Runs.run (step P) {} (earlier ++ [.close])).snapshots = w.snapshots ∧
    w.killed log = (Runs.run (step P) {} (earlier ++ [.close])).disk.withTornLog torn

/-- An open world has a log, and whatever is left of it was left by an earlier close. -/
def KillInv (P : Platform) (events : List Event) (w : World) : Prop :=
  ∀ e, w.engine = some e → ∃ wal, e.memTable.wal = some wal ∧
    ∀ log, wal.file <+: log → log <+: wal.issued → ClosedEarlier P events w log

theorem isTorn_nil : IsTorn [] := ⟨⟨⟨0⟩, ByteString.empty, .Put, (0, 0)⟩, List.nil_prefix, (serialize_ne_nil _).symm⟩

section steps

variable {P : Platform} {events : List Event} {disk : Disk} {e : StorageEngine} {snapshots : List (Nat × SSTable)}
  {wal : WriteAheadLog}

theorem step_close_of_wal (hwal : e.memTable.wal = some wal) :
    step P ⟨disk, some e, snapshots⟩ .close = ⟨{ disk with wal := some wal.issued }, none, snapshots⟩ := by
  unfold step
  dsimp only
  unfold StorageEngine.close
  rw [hwal]

theorem ClosedEarlier.now (hrun : Runs.run (step P) {} events = ⟨disk, some e, snapshots⟩)
    (hwal : e.memTable.wal = some wal) {torn : List UInt8} (htorn : IsTorn torn) :
    ClosedEarlier P events ⟨disk, some e, snapshots⟩ (wal.issued ++ torn) := by
  refine ⟨events, torn, List.prefix_refl _, htorn, ?_, ?_, ?_⟩
  all_goals rw [Runs.run_append, hrun, Runs.run_cons, Runs.run_nil, step_close_of_wal hwal]
  rfl

theorem ClosedEarlier.mono {w w' : World} {log : List UInt8} (h : ClosedEarlier P events w log) (event : Event)
    (hdisk : w'.disk = w.disk) (hsnapshots : w'.snapshots = w.snapshots) :
    ClosedEarlier P (events ++ [event]) w' log := by
  obtain ⟨earlier, torn, hprefix, htorn, hclosed, hsame, hkilled⟩ := h
  refine ⟨earlier, torn, hprefix.trans (List.prefix_append _ _), htorn, hclosed, hsame.trans hsnapshots.symm, ?_⟩
  unfold World.killed at hkilled ⊢
  rw [hdisk]
  exact hkilled

/-- What is left of a log that has grown by a row is left of the log before, or lacks no other row. -/
theorem prefix_log_cases {row : SSTableRow} {log : List UInt8} (h : log <+: (wal.log row).issued) :
    log <+: wal.issued ∨ (∃ torn, IsTorn torn ∧ log = wal.issued ++ torn) ∨ log = (wal.log row).issued := by
  rw [WriteAheadLog.issued_log] at h ⊢
  obtain ⟨rest, hrest⟩ := h
  rcases List.append_eq_append_iff.mp hrest with ⟨lost, hlog, -⟩ | ⟨torn, rfl, hrow⟩
  · exact Or.inl ⟨lost, hlog.symm⟩
  · have htorn : torn <+: serialize row := ⟨rest, hrow.symm⟩
    by_cases hwhole : torn = serialize row
    · rw [hwhole]
      exact Or.inr (Or.inr rfl)
    · exact Or.inr (Or.inl ⟨torn, ⟨row, htorn, hwhole⟩, rfl⟩)

theorem KillInv.write (hrun : Runs.run (step P) {} events = ⟨disk, some e, snapshots⟩)
    (h : KillInv P events ⟨disk, some e, snapshots⟩) (row : SSTableRow) {event : Event}
    (hstep : step P ⟨disk, some e, snapshots⟩ event
      = ⟨disk, some { e with memTable := e.memTable.writeRow row }, snapshots⟩) :
    KillInv P (events ++ [event]) ⟨disk, some { e with memTable := e.memTable.writeRow row }, snapshots⟩ := by
  rintro e' ⟨⟩
  obtain ⟨wal, hwal, hkills⟩ := h e rfl
  have hwal' : (e.memTable.writeRow row).wal = some (wal.log row) := by
    rw [MemTable.wal_writeRow, hwal, Option.map_some]
  refine ⟨wal.log row, hwal', ?_⟩
  intro log hflushed hissued
  have hrun' : Runs.run (step P) {} (events ++ [event])
      = ⟨disk, some { e with memTable := e.memTable.writeRow row }, snapshots⟩ := by
    rw [Runs.run_append, hrun, Runs.run_cons, Runs.run_nil, hstep]
  rcases prefix_log_cases hissued with hold | ⟨torn, htorn, rfl⟩ | rfl
  · exact (hkills log hflushed hold).mono event rfl rfl
  · exact (ClosedEarlier.now hrun hwal htorn).mono event rfl rfl
  · have hnow := ClosedEarlier.now hrun' hwal' isTorn_nil
    rw [List.append_nil] at hnow
    exact hnow

theorem KillInv.flushed (hrun : Runs.run (step P) {} events = ⟨disk, some e, snapshots⟩)
    (hwal : e.memTable.wal = some wal) (hbuffer : wal.buffer = []) :
    KillInv P events ⟨disk, some e, snapshots⟩ := by
  rintro e' ⟨⟩
  refine ⟨wal, hwal, ?_⟩
  intro log hflushed hissued
  have hlog : log = wal.issued := by
    unfold WriteAheadLog.issued at hissued ⊢
    rw [hbuffer, List.append_nil] at hissued ⊢
    exact hissued.eq_of_length (Nat.le_antisymm hissued.length_le hflushed.length_le)
  have hnow := ClosedEarlier.now hrun hwal isTorn_nil
  rw [List.append_nil] at hnow
  rw [hlog]
  exact hnow

theorem KillInv.step {w : World} (hrun : Runs.run (step P) {} events = w) (h : KillInv P events w) (event : Event) :
    KillInv P (events ++ [event]) (OmxDb.step P w event) := by
  have hrun' : Runs.run (OmxDb.step P) {} (events ++ [event]) = OmxDb.step P w event := by
    rw [Runs.run_append, hrun, Runs.run_cons, Runs.run_nil]
  have hkeep : OmxDb.step P w event = w → KillInv P (events ++ [event]) (OmxDb.step P w event) := by
    intro hsame
    rw [hsame]
    intro e he
    obtain ⟨wal, hwal, hkills⟩ := h e he
    exact ⟨wal, hwal, fun log hflushed hissued => (hkills log hflushed hissued).mono event rfl rfl⟩
  obtain ⟨disk, engine, snapshots⟩ := w
  cases engine with
  | none =>
    cases event with
    | «open» options =>
      revert hrun'
      unfold OmxDb.step
      dsimp only
      cases hopen : StorageEngine.open P {} options {} disk with
      | mk disk' result =>
        cases result with
        | error fault =>
          rintro - e ⟨⟩
        | ok e =>
          intro hrun'
          rcases open_cases hopen with ⟨fault, -, hresult, -⟩ | ⟨m, -, -, -, hengine⟩
          · cases hresult
          · obtain ⟨hmemTable, -⟩ := hengine e rfl
            exact KillInv.flushed hrun' (by rw [hmemTable]; rfl) rfl
    | _ => exact hkeep rfl
  | some e =>
    cases event with
    | «open» options => exact hkeep rfl
    | remove key => exact h.write hrun ⟨key, ByteString.empty, .Remove, (0, 0)⟩ rfl
    | close =>
      rintro e' ⟨⟩
    | put opened key value =>
      rcases put_cases P opened ⟨disk, e⟩ key value with ⟨fault, -, hput, hsnapshot⟩ |
        ⟨row, -, -, -, ⟨-, hput, hsnapshot⟩ | ⟨-, hput, hsnapshot⟩⟩
      · apply hkeep
        rw [step_put hput, hsnapshot]
        rfl
      · have hstep : OmxDb.step P ⟨disk, some e, snapshots⟩ (.put opened key value)
            = ⟨disk, some { e with memTable := e.memTable.writeRow row }, snapshots⟩ := by
          rw [step_put hput, hsnapshot]
          rfl
        rw [hstep]
        exact h.write hrun row hstep
      · -- the snapshot flushes the log
        have hmemTable := memTable_makeSnapshot P opened (Store.write ⟨disk, e⟩ row)
        obtain ⟨wal, hwal, -⟩ := h e rfl
        cases hafter : makeSnapshot P opened (Store.write ⟨disk, e⟩ row) with
        | mk s' result =>
          rw [hafter] at hmemTable hput
          rw [step_put hput] at hrun' ⊢
          have hwal' : s'.engine.memTable.wal = some (wal.log row).flushAndClear := by
            rw [hmemTable]
            show (e.memTable.writeRow row).wal.map WriteAheadLog.flushAndClear = _
            rw [MemTable.wal_writeRow, hwal]
            rfl
          exact KillInv.flushed hrun' hwal' rfl

end steps

/-- A process that is killed between two calls leaves the directory that a clean close had left at an earlier point of
its history with the same snapshots, but for one cut row at the end of the log. -/
theorem killed_eq_closed_earlier (P : Platform) (events : List Event) (e : StorageEngine)
    (hopen : (Runs.run (step P) {} events).engine = some e) :
    ∃ wal, e.memTable.wal = some wal ∧ ∀ log, wal.file <+: log → log <+: wal.issued →
      ClosedEarlier P events (Runs.run (step P) {} events) log := by
  have hinv : KillInv P events (Runs.run (step P) {} events) := by
    clear hopen
    induction events using List.reverseRecOn with
    | nil =>
      intro e he
      cases he
    | append_singleton events event ih =>
      rw [Runs.run_append]
      exact KillInv.step rfl ih event
  exact hinv e hopen

/-- Two keys are put, with room for both in the memtable. -/
def twoPuts : List Event :=
  [.open { plainOptions with maxMemTableSize := 1000 }, .put {} ⟨1⟩ (.single 97),
    .put {} ⟨2⟩ (.single 98)]

/-- The file has the first row and a byte of the second. -/
theorem killed_eq_closed_earlier_twoPuts :
    ClosedEarlier plainPlatform twoPuts (Runs.run (step plainPlatform) {} twoPuts)
      (serialize ⟨⟨1⟩, .single 97, .Put, (0, 0)⟩
        ++ (serialize ⟨⟨2⟩, .single 98, .Put, (0, 0)⟩).take 1) := by
  obtain ⟨e, hopen, hlog⟩ : ∃ e, (Runs.run (step plainPlatform) {} twoPuts).engine = some e ∧
      e.memTable.wal = some ⟨[], serialize ⟨⟨1⟩, .single 97, .Put, (0, 0)⟩
        ++ serialize ⟨⟨2⟩, .single 98, .Put, (0, 0)⟩⟩ := ⟨_, rfl, rfl⟩
  obtain ⟨wal, hwal, hkills⟩ := killed_eq_closed_earlier plainPlatform twoPuts e hopen
  rw [hlog] at hwal
  cases hwal
  exact hkills _ List.nil_prefix (by decide)

end OmxDb
