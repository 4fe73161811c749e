import Mathlib.Algebra.BigOperators.Group.List.Basic
import OmxDb.History

/-!
# The memtable limit

`m_memorySize` is to be the memory the rows of the memtable take, and a snapshot to keep it below the limit. Rows
come in on three paths: `put` counts the row and then checks the limit, `remove` counts the row and checks nothing,
and the replay of a log does neither. `limitHolds_iff` says which histories keep the bound: those that open no
directory with a log file and whose removes each leave the counter below the limit.
-/

namespace OmxDb

open StorageEngine

/-! ### Accounting -/

/-- The sizes of the rows held, added up. -/
def MemTable.heldBytes (m : MemTable) : Nat := (m.rows.map SSTableRow.getRowSize).sum

/-- The counter is what the rows take. -/
def MemTable.Accounted (m : MemTable) : Prop := m.memorySize = m.heldBytes

namespace MemTable

theorem heldBytes_insertRow (m : MemTable) (row : SSTableRow) :
    (m.insertRow row).heldBytes = m.heldBytes + row.getRowSize := by
  have hperm : (m.insertRow row).map.entries.Perm ((⟨m.counter, row.key⟩, row) :: m.map.entries) :=
    OrderedMap.perm_insertEntry (m.counter_fresh row.key)
  have hrows : (m.insertRow row).rows.Perm (row :: m.rows) := hperm.map Prod.snd
  unfold heldBytes
  rw [(hrows.map SSTableRow.getRowSize).sum_eq, List.map_cons, List.sum_cons, Nat.add_comm]

theorem heldBytes_writeRow (m : MemTable) (row : SSTableRow) :
    (m.writeRow row).heldBytes = m.heldBytes + row.getRowSize := heldBytes_insertRow _ row

theorem memorySize_writeRow (m : MemTable) (row : SSTableRow) :
    (m.writeRow row).memorySize = m.memorySize + row.getRowSize := rfl

theorem Accounted.writeRow {m : MemTable} (h : m.Accounted) (row : SSTableRow) : (m.writeRow row).Accounted := by
  unfold Accounted at h ⊢
  rw [memorySize_writeRow, heldBytes_writeRow, h]

theorem accounted_clear (m : MemTable) : m.clear.Accounted := rfl

theorem heldBytes_insertAll (m : MemTable) (rows : List SSTableRow) :
    (m.insertAll rows).heldBytes = m.heldBytes + (rows.map SSTableRow.getRowSize).sum := by
  induction rows generalizing m with
  | nil => rfl
  | cons row rows ih =>
    rw [insertAll_cons, ih, heldBytes_insertRow, List.map_cons, List.sum_cons]
    omega

theorem memorySize_insertAll (m : MemTable) (rows : List SSTableRow) :
    (m.insertAll rows).memorySize = m.memorySize := by
  induction rows generalizing m with
  | nil => rfl
  | cons row rows ih => exact ih (m.insertRow row)

/-- A replay that returns has inserted a row at least, and counted none. -/
theorem not_accounted_of_restoreFromLog {P : Platform} {bytes : List UInt8} {m : MemTable}
    (h : restoreFromLog P {} (IStream.ofBytes bytes) = .ok m) : ¬ m.Accounted := by
  rw [restoreFromLog, IStream.bad_ofBytes, if_neg Bool.false_ne_true, restoreLoop] at h
  rw [IStream.eof_ofBytes, if_neg Bool.false_ne_true] at h
  cases hread : deserialize P (IStream.ofBytes bytes) with
  | error fault =>
    rw [hread] at h
    cases h
  | ok read =>
    rw [hread] at h
    dsimp only at h
    rw [restoreLoop_eq] at h
    cases hend : (readRows P ((IStream.ofBytes bytes).rest.length + 1) read.2.peek).2 with
    | error fault =>
      rw [hend] at h
      cases h
    | ok done =>
      rw [hend] at h
      rw [← Except.ok.inj h, Accounted, memorySize_insertAll, heldBytes_insertAll, heldBytes_insertRow,
        SSTableRow.getRowSize]
      show 0 ≠ _
      omega

end MemTable

/-! ### The limit -/

/-- The counter is the memory of the rows held, which is below the limit. -/
def WithinLimit (e : StorageEngine) : Prop :=
  e.memTable.getApproximateSize = e.memTable.heldBytes ∧ e.memTable.heldBytes < e.memTableLimit

/-- Where the event is an open, a put or a remove that returns normally, it leaves the memtable within the limit. -/
def LimitHolds (P : Platform) (w : World) : Event → Prop
  | .open options => ∀ disk e, w.engine = none →
      StorageEngine.open P {} options {} w.disk = (disk, .ok e) → WithinLimit e
  | .put opened key value => ∀ e s, w.engine = some e →
      StorageEngine.put P opened ⟨w.disk, e⟩ key value = (s, .ok ()) → WithinLimit s.engine
  | .remove key => ∀ e, w.engine = some e → WithinLimit (StorageEngine.remove ⟨w.disk, e⟩ key).engine
  | .close => True

/-- What a row without a value takes. -/
def emptyRowSize : Nat := 1 + 1 + 8 + 8 + 1 + 16

/-- An open that returns found no log file, and a remove has room for its row. -/
def CountsEveryRow (P : Platform) (w : World) : Event → Prop
  | .open options => ∀ disk e, w.engine = none →
      StorageEngine.open P {} options {} w.disk = (disk, .ok e) → w.disk.wal = none
  | .remove _ => ∀ e, w.engine = some e → e.memTable.getApproximateSize + emptyRowSize < e.memTableLimit
  | _ => True

/-! ### What snapshots and closing leave alone -/

theorem makeSnapshot_frame (P : Platform) (opened : SnapshotStreams) (s : Store) :
    (makeSnapshot P opened s).1.engine.memTableLimit = s.engine.memTableLimit ∧
      (makeSnapshot P opened s).1.disk.options = s.disk.options := by
  unfold makeSnapshot snapshotBloom snapshotIndex snapshotSegment
  dsimp only
  cases opened.bloom with
  | false => cases opened.segment <;> exact ⟨rfl, rfl⟩
  | true =>
    cases opened.index with
    | false => cases opened.segment <;> exact ⟨rfl, rfl⟩
    | true =>
      simp only [if_true]
      split <;> cases opened.segment <;> exact ⟨rfl, rfl⟩

theorem options_close (s : Store) : (close s).options = s.disk.options := by
  unfold close
  cases s.engine.memTable.wal <;> rfl

/-! ### Histories -/

/-- The memtable of an open world is accounted for and its limit positive, as is every limit that was saved. -/
structure LimitInv (w : World) : Prop where
  engine : ∀ e, w.engine = some e → e.memTable.Accounted ∧ 0 < e.memTableLimit
  options : w.disk.options = none ∨
    ∃ opts : Options, w.disk.options = some (saveOptions opts) ∧ 0 < opts.maxMemTableSize.toNat

theorem LimitInv.open_cases {P : Platform} {w : World} (h : LimitInv w) {options : Options}
    (hpos : 0 < options.maxMemTableSize.toNat) {disk : Disk} {result : Except Fault StorageEngine}
    (hopen : StorageEngine.open P {} options {} w.disk = (disk, result)) :
    (∃ opts : Options, disk.options = some (saveOptions opts) ∧ 0 < opts.maxMemTableSize.toNat) ∧
      ∀ e, result = .ok e → 0 < e.memTableLimit ∧ (WithinLimit e ↔ w.disk.wal = none) ∧
        (e.memTable.Accounted ↔ w.disk.wal = none) := by
  obtain ⟨opts, hopts, hlimit⟩ : ∃ opts : Options,
      (w.disk.options = none ∧ opts = options ∨ w.disk.options = some (saveOptions opts)) ∧
        0 < opts.maxMemTableSize.toNat := by
    rcases h.options with hnone | ⟨opts, hsome, hlimit⟩
    · exact ⟨options, Or.inl ⟨hnone, rfl⟩, hpos⟩
    · exact ⟨opts, Or.inr hsome, hlimit⟩
  obtain ⟨hsaved, -, hengine, hreplay⟩ := open_of_openOptions (openOptions_saved hopts) hopen
  refine ⟨⟨opts, hsaved, hlimit⟩, ?_⟩
  intro e he
  rw [← (hengine e he).1] at hlimit
  rcases hreplay with ⟨fault, -, hfault, -⟩ | ⟨m, hlog, -, hmem⟩
  · rw [he] at hfault
    cases hfault
  · replace hmem := hmem e he
    have hiff : e.memTable.Accounted ↔ w.disk.wal = none := by
      rw [hmem]
      cases hwal : w.disk.wal with
      | none =>
        rw [hwal] at hlog
        rw [← Except.ok.inj hlog]
        exact ⟨fun _ => rfl, fun _ => rfl⟩
      | some bytes =>
        rw [hwal] at hlog
        have hnot : ¬ m.Accounted := MemTable.not_accounted_of_restoreFromLog hlog
        exact ⟨fun hacc => absurd hacc hnot, fun hnone => by cases hnone⟩
    refine ⟨hlimit, ⟨fun hwithin => hiff.mp hwithin.1, ?_⟩, hiff⟩
    intro hwal
    have hacc := hiff.mpr hwal
    refine ⟨hacc, ?_⟩
    rw [hwal] at hlog
    rw [hmem, ← Except.ok.inj hlog]
    exact hlimit

/-- A put of any outcome keeps the accounts, the limit and the saved options; where it returns normally, either the
row did not reach the limit, or a snapshot has emptied the memtable. -/
theorem put_limit {P : Platform} {s : Store} (hacc : s.engine.memTable.Accounted)
    (hlimit : 0 < s.engine.memTableLimit) (opened : SnapshotStreams) (key : Key) (value : ByteString) :
    (StorageEngine.put P opened s key value).1.engine.memTable.Accounted ∧
      (StorageEngine.put P opened s key value).1.engine.memTableLimit = s.engine.memTableLimit ∧
      (StorageEngine.put P opened s key value).1.disk.options = s.disk.options ∧
      ∀ s', StorageEngine.put P opened s key value = (s', .ok ()) → WithinLimit s'.engine := by
  rcases put_cases P opened s key value with ⟨fault, -, hput, -⟩ | ⟨row, -, -, -, ⟨hdue, hput, -⟩ | ⟨-, hput, -⟩⟩
  · rw [hput]
    exact ⟨hacc, rfl, rfl, fun s' hs => by cases hs⟩
  · rw [hput]
    have hacc' : (s.engine.memTable.writeRow row).Accounted := hacc.writeRow row
    refine ⟨hacc', rfl, rfl, ?_⟩
    rintro s' ⟨⟩
    refine ⟨hacc', ?_⟩
    have hlt : ¬ (s.engine.memTable.writeRow row).memorySize ≥ s.engine.memTableLimit := of_decide_eq_false hdue
    show (s.engine.memTable.writeRow row).heldBytes < s.engine.memTableLimit
    rw [← hacc']
    omega
  · rw [hput]
    obtain ⟨hlim, hopts⟩ := makeSnapshot_frame P opened (s.write row)
    have hmem := memTable_makeSnapshot P opened (s.write row)
    refine ⟨?_, hlim, hopts, ?_⟩
    · rw [hmem]
      exact MemTable.accounted_clear _
    · intro s' hs
      rw [hs] at hmem hlim
      rw [WithinLimit, hmem, hlim]
      exact ⟨MemTable.accounted_clear _, hlimit⟩

theorem LimitInv.put {P : Platform} {w : World} (h : LimitInv w) {e : StorageEngine} (he : w.engine = some e)
    (opened : SnapshotStreams) (key : Key) (value : ByteString) :
    LimitInv (step P w (.put opened key value)) ∧ LimitHolds P w (.put opened key value) := by
  obtain ⟨hacc, hlimit⟩ := h.engine e he
  have hstep : (step P w (.put opened key value)).disk = (StorageEngine.put P opened ⟨w.disk, e⟩ key value).1.disk ∧
      (step P w (.put opened key value)).engine
        = some (StorageEngine.put P opened ⟨w.disk, e⟩ key value).1.engine := by
    unfold step
    rw [he]
    exact ⟨rfl, rfl⟩
  have hput := put_limit (P := P) (s := ⟨w.disk, e⟩) hacc hlimit opened key value
  obtain ⟨hacc', hlim', hopts', hwithin⟩ := hput
  refine ⟨⟨?_, ?_⟩, ?_⟩
  · intro e' he'
    rw [hstep.2, Option.some.injEq] at he'
    rw [← he', hlim']
    exact ⟨hacc', hlimit⟩
  · rw [hstep.1, hopts']
    exact h.options
  · intro e' s he' hput
    rw [he, Option.some.injEq] at he'
    subst he'
    exact hwithin s hput

theorem LimitInv.remove {P : Platform} {w : World} (h : LimitInv w) (key : Key) :
    LimitHolds P w (.remove key) ↔ CountsEveryRow P w (.remove key) := by
  refine forall₂_congr fun e he => ?_
  have hacc : (e.memTable.writeRow ⟨key, ByteString.empty, .Remove, (0, 0)⟩).Accounted :=
    (h.engine e he).1.writeRow _
  have hsize := MemTable.memorySize_writeRow e.memTable ⟨key, ByteString.empty, .Remove, (0, 0)⟩
  constructor
  · intro hwithin
    have hlt : (e.memTable.writeRow ⟨key, ByteString.empty, .Remove, (0, 0)⟩).heldBytes < e.memTableLimit :=
      hwithin.2
    rw [← hacc, hsize] at hlt
    exact hlt
  · intro hroom
    refine ⟨hacc, ?_⟩
    show (e.memTable.writeRow ⟨key, ByteString.empty, .Remove, (0, 0)⟩).heldBytes < e.memTableLimit
    rw [← hacc, hsize]
    exact hroom

theorem LimitInv.holds_iff {P : Platform} {w : World} (h : LimitInv w) {event : Event}
    (hpos : ∀ options, event = .open options → 0 < options.maxMemTableSize.toNat) :
    LimitHolds P w event ↔ CountsEveryRow P w event := by
  cases event with
  | «open» options =>
    refine forall₄_congr fun disk e _ hopen => ?_
    exact ((h.open_cases (hpos options rfl) hopen).2 e rfl).2.1
  | put opened key value =>
    refine ⟨fun _ => trivial, fun _ => ?_⟩
    cases hengine : w.engine with
    | none =>
      intro e s he
      rw [hengine] at he
      cases he
    | some e => exact (h.put hengine opened key value).2
  | remove key => exact h.remove key
  | close => exact Iff.rfl

theorem LimitInv.step {P : Platform} {w : World} {event : Event} (h : LimitInv w)
    (hpos : ∀ options, event = .open options → 0 < options.maxMemTableSize.toNat)
    (hcount : CountsEveryRow P w event) : LimitInv (step P w event) := by
  obtain ⟨disk, engine, snapshots⟩ := w
  cases engine with
  | none =>
    cases event with
    | «open» options =>
      unfold OmxDb.step
      dsimp only
      cases hopen : StorageEngine.open P {} options {} disk with
      | mk disk' result =>
        obtain ⟨hsaved, hresult⟩ := h.open_cases (hpos options rfl) hopen
        cases result with
        | error fault =>
          refine ⟨?_, Or.inr hsaved⟩
          intro e he
          cases he
        | ok e =>
          obtain ⟨hlimit, -, hacc⟩ := hresult e rfl
          refine ⟨?_, Or.inr hsaved⟩
          rintro e' ⟨⟩
          exact ⟨hacc.mpr (hcount disk' e rfl hopen), hlimit⟩
    | _ => exact h
  | some e =>
    obtain ⟨hacc, hlimit⟩ := h.engine e rfl
    cases event with
    | «open» options => exact h
    | put opened key value => exact (h.put rfl opened key value).1
    | remove key =>
      refine ⟨?_, h.options⟩
      rintro e' ⟨⟩
      exact ⟨hacc.writeRow ⟨key, ByteString.empty, .Remove, (0, 0)⟩, hlimit⟩
    | close =>
      refine ⟨(fun e' he' => by cases he'), ?_⟩
      have hoptions : (OmxDb.step P ⟨disk, some e, snapshots⟩ .close).disk.options = disk.options :=
        options_close ⟨disk, e⟩
      rw [hoptions]
      exact h.options

/-- A history of sessions with positive limits keeps the memtable within the limit if and only if no open that
returns finds a log file and every remove has room for its row. -/
theorem limitHolds_iff (P : Platform) (events : List Event)
    (hpos : ∀ options, .open options ∈ events → 0 < options.maxMemTableSize) :
    Runs.Meets (step P) (LimitHolds P) {} events ↔ Runs.Meets (step P) (CountsEveryRow P) {} events := by
  have hpositive : Runs.Meets (step P)
      (fun _ event => ∀ options, event = .open options → 0 < options.maxMemTableSize.toNat) {} events := by
    refine Runs.Meets.of_forall (step P) {} ?_
    rintro _ hmem options rfl
    exact hpos options hmem
  have hinit : LimitInv {} := ⟨(fun e he => by cases he), Or.inl rfl⟩
  constructor
  · intro hmeets
    refine Runs.Meets.of_inv LimitInv ?_ ?_ (hpositive.and hmeets) hinit
    · intro w event h hcond
      exact h.step hcond.1 ((h.holds_iff hcond.1).mp hcond.2)
    · intro w event h hcond
      exact (h.holds_iff hcond.1).mp hcond.2
  · intro hmeets
    refine Runs.Meets.of_inv LimitInv ?_ ?_ (hpositive.and hmeets) hinit
    · intro w event h hcond
      exact h.step hcond.1 hcond.2
    · intro w event h hcond
      exact (h.holds_iff hcond.1).mpr hcond.2

theorem limitHolds_session :
    Runs.Meets (step plainPlatform) (LimitHolds plainPlatform) {}
      [.open { plainOptions with maxMemTableSize := 1024 }, .put {} ⟨1⟩ (.single 97),
        .remove ⟨1⟩] := by
  refine (limitHolds_iff plainPlatform _ ?_).mpr ⟨fun _ _ _ _ => rfl, trivial, ?_, trivial⟩
  · intro options hmem
    simp only [List.mem_cons, Event.open.injEq, reduceCtorEq, List.not_mem_nil, or_false] at hmem
    rw [hmem]
    decide
  · rintro e ⟨⟩
    decide

/-- A remove passes a limit of one byte, and a restart holds a row that is not counted. -/
theorem not_limitHolds_remove_restart :
    ¬ Runs.Meets (step plainPlatform) (LimitHolds plainPlatform) {}
        [.open { plainOptions with maxMemTableSize := 1 }, .remove ⟨1⟩] ∧
      ¬ Runs.Meets (step plainPlatform) (LimitHolds plainPlatform) {} putAndRestart := by
  constructor
  · rintro ⟨-, hremove, -⟩
    obtain ⟨e, hengine, hlimit, hheld⟩ : ∃ e,
        (step plainPlatform {} (.open { plainOptions with maxMemTableSize := 1 })).engine = some e ∧
          e.memTableLimit = 1 ∧ (e.memTable.remove ⟨1⟩).heldBytes = 35 := ⟨_, rfl, rfl, rfl⟩
    have hlt : (e.memTable.remove ⟨1⟩).heldBytes < e.memTableLimit := (hremove e hengine).2
    omega
  · rintro ⟨-, -, -, hopen, -⟩
    obtain ⟨disk, e, hclosed, hreopen, hcounter, hheld⟩ : ∃ disk e,
        (Runs.run (step plainPlatform) {} (putAndRestart.take 3)).engine = none ∧
          StorageEngine.open plainPlatform {} { plainOptions with maxMemTableSize := 1024 } {}
            (Runs.run (step plainPlatform) {} (putAndRestart.take 3)).disk = (disk, .ok e) ∧
          e.memTable.getApproximateSize = 0 ∧ e.memTable.heldBytes = 36 := ⟨_, _, rfl, rfl, rfl, rfl⟩
    have hwithin := (hopen disk e hclosed hreopen).1
    omega

end OmxDb
