import OmxDb.Replay

/-!
# Clearing a memtable and its log

`clear` empties the map and calls `flushAndClear` on the log, which writes out the stream buffer and clears the
vector behind it. The file keeps its bytes and the stream its position, so the log goes on behind the rows that
were moved to a segment: the file is what was logged since the last `clear` only where nothing was logged before.
-/

namespace OmxDb

namespace MemTable

/-- A call on a memtable with a log. -/
inductive LogCall where
  | write (w : Write)
  | clear

def logCall (m : MemTable) : LogCall → MemTable
  | .write w => m.write w
  | .clear => m.clear

/-- The memtable after the calls, from any memtable that just got a log. -/
def logCalls (m : MemTable) (calls : List LogCall) : MemTable := calls.foldl logCall m.setWriteAheadLog

/-- The rows of the writes. -/
def writtenRows (calls : List LogCall) : List SSTableRow :=
  calls.flatMap fun c => match c with
    | .write w => [w.row]
    | .clear => []

/-- The rows of the writes behind the last `clear`. -/
def rowsSinceClear (calls : List LogCall) : List SSTableRow :=
  calls.foldl (fun rows c => match c with
    | .write w => rows ++ [w.row]
    | .clear => []) []

/-- Flushed, the file of the log is the serialized rows written since the last `clear`. -/
def LogMatchesMap (m : MemTable) (calls : List LogCall) : Prop :=
  ∃ wal, (m.logCalls calls).wal = some wal ∧ wal.flushAndClear.file = serializeAll (rowsSinceClear calls)

/-- No write comes before a `clear`. -/
def ClearsNothing (calls : List LogCall) : Prop :=
  ∀ before after, calls = before ++ .clear :: after → ∀ w, .write w ∉ before

theorem wal_logCall (m : MemTable) (wal : WriteAheadLog) (h : m.wal = some wal) (c : LogCall) :
    ∃ wal', (m.logCall c).wal = some wal' ∧ wal'.issued = wal.issued ++ serializeAll (writtenRows [c]) := by
  cases c with
  | write w =>
    refine ⟨wal.log w.row, ?_, ?_⟩
    · rw [logCall, (write_eq m w).2.2, h, Option.map_some]
    · rw [WriteAheadLog.issued_log]
      simp [writtenRows]
  | clear =>
    refine ⟨wal.flushAndClear, ?_, ?_⟩
    · rw [logCall, clear, h, Option.map_some]
    · rw [WriteAheadLog.issued_flushAndClear]
      simp [writtenRows]

theorem wal_logCalls (m : MemTable) (calls : List LogCall) :
    ∃ wal, (m.logCalls calls).wal = some wal ∧ wal.flushAndClear.file = serializeAll (writtenRows calls) := by
  have hfold : ∀ (m : MemTable) (wal : WriteAheadLog), m.wal = some wal → ∃ wal',
      (calls.foldl logCall m).wal = some wal' ∧ wal'.issued = wal.issued ++ serializeAll (writtenRows calls) := by
    induction calls with
    | nil =>
      intro m wal hwal
      exact ⟨wal, hwal, by simp [writtenRows]⟩
    | cons c calls ih =>
      intro m wal hwal
      obtain ⟨wal₁, hwal₁, hissued₁⟩ := wal_logCall m wal hwal c
      obtain ⟨wal₂, hwal₂, hissued₂⟩ := ih _ wal₁ hwal₁
      refine ⟨wal₂, hwal₂, ?_⟩
      have hrows : writtenRows (c :: calls) = writtenRows [c] ++ writtenRows calls := by
        simp [writtenRows]
      rw [hissued₂, hissued₁, hrows, serializeAll_append, List.append_assoc]
  obtain ⟨wal, hwal, hissued⟩ := hfold m.setWriteAheadLog WriteAheadLog.create rfl
  exact ⟨wal, hwal, hissued⟩

/-- What was written is what was written before the last `clear` and what was written since. -/
theorem exists_rows_before_clear (calls : List LogCall) :
    ∃ cleared, writtenRows calls = cleared ++ rowsSinceClear calls ∧ (cleared = [] ↔ ClearsNothing calls) := by
  induction calls using List.reverseRecOn with
  | nil =>
    refine ⟨[], rfl, fun _ => ?_, fun _ => rfl⟩
    intro before after h
    simp at h
  | append_singleton calls c ih =>
    obtain ⟨cleared, hrows, hiff⟩ := ih
    cases c with
    | write w =>
      refine ⟨cleared, ?_, hiff.trans ?_⟩
      · have hwritten : writtenRows (calls ++ [.write w]) = writtenRows calls ++ [w.row] := by
          simp [writtenRows]
        have hsince : rowsSinceClear (calls ++ [.write w]) = rowsSinceClear calls ++ [w.row] := by
          simp [rowsSinceClear]
        rw [hwritten, hsince, hrows, List.append_assoc]
      · constructor
        · intro h before after hcalls
          rcases List.eq_nil_or_concat after with rfl | ⟨after, last, rfl⟩
          · exact absurd (List.append_inj_right' hcalls rfl) (by simp)
          · rw [List.concat_eq_append, ← List.cons_append, ← List.append_assoc] at hcalls
            exact h before after (List.append_inj_left' hcalls rfl)
        · intro h before after hcalls
          exact h before (after ++ [.write w]) (by rw [hcalls, List.append_assoc]; rfl)
    | clear =>
      refine ⟨writtenRows calls, ?_, ?_⟩
      · simp [writtenRows, rowsSinceClear]
      · constructor
        · intro hnil before after hcalls w hmem
          have hwritten : .write w ∈ calls ++ [LogCall.clear] := by
            rw [hcalls]
            exact List.mem_append_left _ hmem
          have hmem' : .write w ∈ calls := by simpa using hwritten
          have hrow : w.row ∈ writtenRows calls := List.mem_flatMap.mpr ⟨.write w, hmem', by simp⟩
          rw [hnil] at hrow
          exact absurd hrow List.not_mem_nil
        · intro h
          refine List.flatMap_eq_nil_iff.mpr fun c hmem => ?_
          cases c with
          | write w => exact absurd hmem (h calls [] rfl w)
          | clear => rfl

/-- The log matches the map after a run of calls if and only if no row was written before a `clear`. -/
theorem logMatchesMap_iff (m : MemTable) (calls : List LogCall) :
    LogMatchesMap m calls ↔ ClearsNothing calls := by
  obtain ⟨wal, hwal, hfile⟩ := wal_logCalls m calls
  obtain ⟨cleared, hrows, hiff⟩ := exists_rows_before_clear calls
  rw [← hiff]
  constructor
  · rintro ⟨wal', hwal', hfile'⟩
    rw [hwal, Option.some.injEq] at hwal'
    rw [← hwal', hfile, hrows, serializeAll_append] at hfile'
    exact serializeAll_eq_nil.mp (List.append_left_eq_self.mp hfile')
  · intro hnil
    rw [hnil, List.nil_append] at hrows
    exact ⟨wal, hwal, by rw [hfile, hrows]⟩

/-- The row of a put stays in the log when the map is cleared, and a replay brings it back. -/
theorem not_logMatchesMap_clear :
    ¬ LogMatchesMap {} [.write (.put ⟨1⟩ (.single 97) (0, 0)), .clear] ∧
      ∃ wal m, (logCalls {} [.write (.put ⟨1⟩ (.single 97) (0, 0)), .clear]).wal = some wal ∧
        restoreFromLog plainPlatform {} (IStream.ofBytes wal.flushAndClear.file) = .ok m ∧
        m.rows = [⟨⟨1⟩, .single 97, .Put, (0, 0)⟩] := by
  constructor
  · rintro ⟨wal, hwal, hfile⟩
    obtain ⟨wal', hwal', hfile'⟩ := wal_logCalls {} [.write (.put ⟨1⟩ (.single 97) (0, 0)), .clear]
    rw [hwal, Option.some.injEq] at hwal'
    rw [← hwal', hfile] at hfile'
    exact absurd hfile' (by decide)
  · exact ⟨_, _, rfl, rfl, rfl⟩

end MemTable

end OmxDb
