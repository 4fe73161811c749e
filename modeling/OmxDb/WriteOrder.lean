import OmxDb.Linearizability
import Mathlib.Data.Prod.Lex

/-!
# Writes of many threads

Whatever puts, gets and removes of many threads do between each other, the store they leave is the one that the writes
leave one after another, in the order in which they took the lock: memtable and log, filter and index, and every file.
So a directory that many threads wrote to has a history in which one did (`writes_serialise`).

A put that holds the lock is somewhere in the turns it would take alone; when it has come to its last one, its result
is that of the whole call, and it comes there after finitely many.
-/

namespace OmxDb

open StorageEngine

/-! ### Turns that are left -/

/-- How far a call is from where its remaining turns can be counted. -/
def Running.rank : Running → Nat
  | .idle => 0
  | .putting _ _ .compressing => 4
  | .putting _ _ (.locking _) => 3
  | .putting _ _ .checking => 2
  | .putting _ _ _ => 1
  | .getting _ _ => 1

/-- The turns that are left of a snapshot, or of a get. -/
def Running.turnsLeft (P : Platform) : Running → Nat
  | .putting _ _ (.dumping _ table) => (addedPositions P table).length + 7
  | .putting _ _ (.clearing _ table) => (addedPositions P table).length + 6
  | .putting _ _ (.adding _ _ rest) => rest.length + 5
  | .putting _ _ (.dumpingFilter _ _) => 4
  | .putting _ _ (.dumpingIndex _ _) => 3
  | .putting _ _ (.updating _ _) => 2
  | .putting _ _ (.unlocking _) => 1
  | .getting _ phase => phase.turnsLeft
  | _ => 0

theorem turn_decreases (P : Platform) (s : Store) {running : Running} {turn : Turn}
    (hturn : OmxDb.turn P s running = some turn) :
    turn.running.rank < running.rank ∨
      turn.running.rank = running.rank ∧ turn.running.turnsLeft P < running.turnsLeft P := by
  cases running with
  | idle => cases hturn
  | getting key phase =>
    cases hturn
    rcases getTurn_cases P s key phase with ⟨phase', heq, hless⟩ | ⟨result, heq⟩
    · rw [heq]
      exact Or.inr ⟨rfl, hless⟩
    · rw [heq]
      exact Or.inl Nat.zero_lt_one
  | putting key value phase =>
    cases hturn
    cases phase with
    | compressing =>
      unfold putTurn
      dsimp only
      split
      · exact Or.inl (Nat.succ_pos 3)
      · exact Or.inl (Nat.lt_succ_self 3)
    | locking row => exact Or.inl (Nat.lt_succ_self 2)
    | checking =>
      unfold putTurn
      dsimp only
      split
      · exact Or.inl (Nat.lt_succ_self 1)
      · exact Or.inl (Nat.lt_succ_self 1)
    | adding segment table rest =>
      cases rest with
      | nil => exact Or.inr ⟨rfl, Nat.lt_succ_self 4⟩
      | cons j rest => exact Or.inr ⟨rfl, by simp [putTurn, Running.turnsLeft]⟩
    | updating segment table =>
      unfold putTurn
      dsimp only
      split
      · exact Or.inr ⟨rfl, Nat.lt_succ_self 1⟩
      · exact Or.inr ⟨rfl, Nat.lt_succ_self 1⟩
    | unlocking result => exact Or.inl (Nat.lt_succ_self 0)
    | _ => exact Or.inr ⟨rfl, Nat.lt_succ_self _⟩

theorem Running.wantsLock_of_holdsLock {running : Running} (h : running.holdsLock = true) :
    running.wantsLock = false := by
  cases running with
  | idle => rfl
  | getting key phase => cases h
  | putting key value phase => cases phase <;> first | rfl | cases h

/-! ### Threads that also remove -/

/-- What changes the store. -/
inductive Write where
  | put (key : Key) (value : ByteString)
  | remove (key : Key)

def Write.event : Write → Event
  | .put key value => .put {} key value
  | .remove key => .remove key

/-- The store behind a write. -/
def Write.store (P : Platform) (s : Store) : Write → Store
  | .put key value => (StorageEngine.put P {} s key value).1
  | .remove key => StorageEngine.remove s key

/-- The threads on their store, and what took the lock to write, the first one first. -/
structure Writers (Tid : Type*) where
  system : System Tid
  writes : List (Tid × Write) := []

/-- A thread begins a put or a get, goes on with it, or removes. -/
inductive WriterAction (Tid : Type*) where
  | turn (action : Action Tid)
  | remove (t : Tid) (key : Key)

/-- The put that takes the lock where its row is inserted. -/
def insertedWrite {Tid : Type*} : Tid × Happening → Option (Tid × Write)
  | (t, .insert key value) => some (t, .put key value)
  | _ => none

namespace Writers

variable {Tid : Type*} [DecidableEq Tid]

/-- `remove` has the lock for its only turn. -/
def step (P : Platform) (s : Writers Tid) : WriterAction Tid → Writers Tid
  | .turn action =>
    let system := s.system.step P action
    { system := system
      writes := s.writes ++ (system.history.drop s.system.history.length).filterMap insertedWrite }
  | .remove t key =>
    match s.system.running t, s.system.writer with
    | .idle, none =>
      { system := { s.system with store := StorageEngine.remove s.system.store key }
        writes := s.writes ++ [(t, .remove key)] }
    | _, _ => s

end Writers

/-- The writes one after another. -/
def sequential {Tid : Type*} (P : Platform) (s : Store) (writes : List (Tid × Write)) : Store :=
  writes.foldl (fun s write => write.2.store P s) s

section sequential

variable {Tid : Type*} {P : Platform} {s : Store} {writes : List (Tid × Write)}

theorem sequential_append (before : List (Tid × Write)) (write : Tid × Write) :
    sequential P s (before ++ [write]) = write.2.store P (sequential P s before) := by
  unfold sequential
  rw [List.foldl_append]
  rfl

theorem exists_run_events (P : Platform) (s : Store) (writes : List (Tid × Write))
    (snapshots : List (Nat × SSTable)) :
    ∃ snapshots', Runs.run (step P) ⟨s.disk, some s.engine, snapshots⟩ (writes.map fun write => write.2.event)
      = ⟨(sequential P s writes).disk, some (sequential P s writes).engine, snapshots'⟩ := by
  induction writes generalizing s snapshots with
  | nil => exact ⟨snapshots, rfl⟩
  | cons write writes ih =>
    obtain ⟨t, write⟩ := write
    cases write with
    | put key value => exact ih (StorageEngine.put P {} s key value).1 _
    | remove key => exact ih (StorageEngine.remove s key) _

end sequential

/-! ### A put alone from its row on -/

section put

variable {P : Platform} {s s' : Store} {key : Key} {value : ByteString} {row : SSTableRow}

theorem compressRow_congr {e e' : StorageEngine} (hcompressor : e'.compressor = e.compressor)
    (hhasher : e'.hasher = e.hasher) (key : Key) (value : ByteString) :
    compressRow e' key value = compressRow e key value := by
  unfold compressRow
  rw [hcompressor, hhasher]

theorem putTurn_keeps (P : Platform) (s : Store) (key : Key) (value : ByteString) (phase : PutPhase) :
    (putTurn P s key value phase).store.engine.compressor = s.engine.compressor ∧
      (putTurn P s key value phase).store.engine.hasher = s.engine.hasher := by
  cases phase with
  | compressing =>
    unfold putTurn
    dsimp only
    split <;> exact ⟨rfl, rfl⟩
  | checking =>
    unfold putTurn
    dsimp only
    split <;> exact ⟨rfl, rfl⟩
  | adding segment table rest => cases rest <;> exact ⟨rfl, rfl⟩
  | updating segment table =>
    unfold putTurn
    dsimp only
    split <;> exact ⟨rfl, rfl⟩
  | _ => exact ⟨rfl, rfl⟩

/-- From its row on, a put that is alone comes to the store and the result of the whole call. -/
theorem alone_of_compressRow (hrow : compressRow s.engine key value = .ok row) :
    Alone P { store := s.write row, holds := true, running := .putting key value .checking }
      { store := (StorageEngine.put P {} s key value).1
        holds := true
        running := .putting key value (.unlocking (StorageEngine.put P {} s key value).2) } := by
  unfold StorageEngine.put
  rw [putRow_eq_compressRow, hrow]
  dsimp only [Except.map]
  cases hdue : snapshotDue (s.write row) with
  | true => exact Alone.makeSnapshot (s.write row) key value hdue
  | false =>
    refine Alone.cons ?_
    dsimp only [Turn.next, turn, putTurn]
    rw [hdue]
    exact Alone.refl P _

end put

/-! ### The invariant -/

/-- The put that holds the lock is on its way to what it leaves behind the writes before it. -/
def PutUnderWay {Tid : Type*} (P : Platform) (initial : Store) (s : Writers Tid) (t : Tid) : Prop :=
  ∃ before key value phase, s.writes = before ++ [(t, .put key value)] ∧
    s.system.running t = .putting key value phase ∧
    Alone P { store := s.system.store, holds := true, running := .putting key value phase }
      { store := (StorageEngine.put P {} (sequential P initial before) key value).1
        holds := true
        running := .putting key value
          (.unlocking (StorageEngine.put P {} (sequential P initial before) key value).2) }

structure SerialInv {Tid : Type*} (P : Platform) (initial : Store) (s : Writers Tid) : Prop where
  rows : ∀ t key value row, s.system.running t = .putting key value (.locking row) →
    compressRow s.system.store.engine key value = .ok row
  holds : ∀ t, (s.system.running t).holdsLock = true ↔ s.system.writer = some t
  free : s.system.writer = none → s.system.store = sequential P initial s.writes
  held : ∀ t, s.system.writer = some t → PutUnderWay P initial s t

section serial

variable {Tid : Type*} [DecidableEq Tid] {P : Platform} {initial : Store} {s : Writers Tid} {t : Tid}

omit [DecidableEq Tid] in
theorem serialInv_initial (P : Platform) (initial : Store) :
    SerialInv P initial ({ system := { store := initial } } : Writers Tid) where
  rows t key value row hrun := by cases hrun
  holds t := iff_of_false Bool.false_ne_true (Option.some_ne_none t).symm
  free _ := rfl
  held t hwriter := by cases hwriter

theorem holds_take {sys : System Tid} (h : ∀ t, (sys.running t).holdsLock = true ↔ sys.writer = some t) {turn : Turn}
    (hlock : turn.running.holdsLock = turn.holds) (hexclusive : turn.holds = true → ∀ t', sys.writer = some t' → t' = t)
    (t' : Tid) : ((sys.take t turn).running t').holdsLock = true ↔ (sys.take t turn).writer = some t' := by
  show (Function.update sys.running t turn.running t').holdsLock = true ↔
    (if turn.holds then some t else if sys.writer = some t then none else sys.writer) = some t'
  by_cases hne : t' = t
  · subst hne
    rw [Function.update_self, hlock]
    cases turn.holds with
    | true => exact iff_of_true rfl rfl
    | false =>
      refine iff_of_false Bool.false_ne_true ?_
      rw [if_neg Bool.false_ne_true]
      split_ifs with hwriter
      · exact not_false
      · exact hwriter
  · rw [Function.update_of_ne hne, h]
    cases hholds : turn.holds with
    | true =>
      refine iff_of_false (fun hwriter => hne (hexclusive hholds t' hwriter)) ?_
      exact fun heq => hne (Option.some.inj heq).symm
    | false =>
      rw [if_neg Bool.false_ne_true]
      split_ifs with hwriter
      · rw [hwriter]
        exact iff_of_false (fun heq => hne (Option.some.inj heq).symm) not_false
      · exact Iff.rfl

theorem SerialInv.rows_take (h : SerialInv P initial s) {turn : Turn}
    (hkeeps : turn.store.engine.compressor = s.system.store.engine.compressor ∧
      turn.store.engine.hasher = s.system.store.engine.hasher)
    (hrow : ∀ key value row, turn.running = .putting key value (.locking row) →
      compressRow s.system.store.engine key value = .ok row) :
    ∀ t' key value row, (s.system.take t turn).running t' = .putting key value (.locking row) →
      compressRow (s.system.take t turn).store.engine key value = .ok row := by
  intro t' key value row hrun
  show compressRow turn.store.engine key value = .ok row
  rw [compressRow_congr hkeeps.1 hkeeps.2]
  change Function.update s.system.running t turn.running t' = _ at hrun
  by_cases hne : t' = t
  · subst hne
    rw [Function.update_self] at hrun
    exact hrow key value row hrun
  · rw [Function.update_of_ne hne] at hrun
    exact h.rows t' key value row hrun

theorem SerialInv.aside (h : SerialInv P initial s) (hbefore : (s.system.running t).holdsLock = false) {turn : Turn}
    (hstore : turn.store = s.system.store) (hholds : turn.holds = false) (hafter : turn.running.holdsLock = false)
    (hrow : ∀ key value row, turn.running = .putting key value (.locking row) →
      compressRow s.system.store.engine key value = .ok row) :
    SerialInv P initial { system := s.system.take t turn, writes := s.writes } := by
  have hnot : s.system.writer ≠ some t := by
    intro hwriter
    rw [← h.holds, hbefore] at hwriter
    cases hwriter
  have hwriter : (s.system.take t turn).writer = s.system.writer := by
    unfold System.take
    rw [hholds, if_neg Bool.false_ne_true, if_neg hnot]
  refine ⟨h.rows_take (by rw [hstore]; exact ⟨rfl, rfl⟩) hrow,
    holds_take h.holds (hafter.trans hholds.symm) (fun hlocked => ?_), ?_, ?_⟩
  · rw [hholds] at hlocked
    cases hlocked
  · intro hnone
    rw [hwriter] at hnone
    exact hstore.trans (h.free hnone)
  · intro t' hheld
    rw [hwriter] at hheld
    obtain ⟨before, key, value, phase, hwrites, hrun, halone⟩ := h.held t' hheld
    have hne : t' ≠ t := by
      rintro rfl
      exact hnot hheld
    refine ⟨before, key, value, phase, hwrites, ?_, ?_⟩
    · show Function.update s.system.running t turn.running t' = _
      rw [Function.update_of_ne hne, hrun]
    · show Alone P { store := turn.store, holds := true, running := _ } _
      rw [hstore]
      exact halone

theorem SerialInv.locking (h : SerialInv P initial s) {key : Key} {value : ByteString} {row : SSTableRow}
    (hrun : s.system.running t = .putting key value (.locking row)) (hnone : s.system.writer = none) :
    SerialInv P initial {
      system := s.system.take t (putTurn P s.system.store key value (.locking row))
      writes := s.writes ++ [(t, .put key value)] } := by
  have hrow := h.rows t key value row hrun
  refine ⟨h.rows_take (putTurn_keeps P _ key value _) (fun key' value' row' heq => by cases heq),
    holds_take h.holds rfl (fun _ t' hwriter => by rw [hnone] at hwriter; cases hwriter), ?_, ?_⟩
  · intro hfree
    cases hfree
  · intro t' hwriter
    cases hwriter
    refine ⟨s.writes, key, value, .checking, rfl, Function.update_self .., ?_⟩
    have halone := alone_of_compressRow (P := P) hrow
    rw [h.free hnone] at halone
    show Alone P { store := s.system.store.write row, holds := true, running := _ } _
    rw [h.free hnone]
    exact halone

theorem SerialInv.under (h : SerialInv P initial s) {key : Key} {value : ByteString} {phase : PutPhase}
    (hrun : s.system.running t = .putting key value phase) (hwriter : s.system.writer = some t)
    (hlast : ∀ result, phase ≠ .unlocking result) :
    SerialInv P initial {
      system := s.system.take t (putTurn P s.system.store key value phase)
      writes := s.writes } := by
  have hlocked : (Running.putting key value phase).holdsLock = true := by
    rw [← hrun]
    exact (h.holds t).mpr hwriter
  obtain ⟨s', phase', hturn, hlocked', -⟩ := putTurn_locked P s.system.store key value hlocked hlast
  have hkeeps := putTurn_keeps P s.system.store key value phase
  rw [hturn] at hkeeps ⊢
  refine ⟨h.rows_take hkeeps ?_, holds_take h.holds hlocked' ?_, ?_, ?_⟩
  · intro key' value' row heq
    cases heq
    cases hlocked'
  · intro _ t' hwriter'
    rw [hwriter] at hwriter'
    exact (Option.some.inj hwriter').symm
  · intro hfree
    cases hfree
  · intro t' hheld
    cases hheld
    obtain ⟨before, key', value', phase₀, hwrites, hrun', halone⟩ := h.held t hwriter
    rw [hrun] at hrun'
    cases hrun'
    refine ⟨before, key, value, phase', hwrites, Function.update_self .., ?_⟩
    have hrest := halone.next (by
      intro heq
      cases congrArg Turn.running heq
      exact hlast _ rfl)
    unfold Turn.next OmxDb.turn at hrest
    dsimp only at hrest
    rw [hturn] at hrest
    exact hrest

omit [DecidableEq Tid] in
theorem PutUnderWay.unlocking (h : PutUnderWay P initial s t) {key : Key} {value : ByteString}
    {result : Except Fault Unit} (hrun : s.system.running t = .putting key value (.unlocking result)) :
    ∃ before, s.writes = before ++ [(t, .put key value)] ∧
      StorageEngine.put P {} (sequential P initial before) key value = (s.system.store, result) := by
  obtain ⟨before, key', value', phase, hwrites, hrun', halone⟩ := h
  rw [hrun] at hrun'
  cases hrun'
  refine ⟨before, hwrites, ?_⟩
  generalize StorageEngine.put P {} (sequential P initial before) key value = behind at halone ⊢
  obtain ⟨last, result'⟩ := behind
  by_cases heq : ({ store := s.system.store, holds := true, running := .putting key value (.unlocking result) } : Turn)
      = { store := last, holds := true, running := .putting key value (.unlocking result') }
  · cases heq
    rfl
  · have hreturned := (halone.next heq).idle rfl
    cases hreturned

theorem SerialInv.unlocking (h : SerialInv P initial s) {key : Key} {value : ByteString} {result : Except Fault Unit}
    (hrun : s.system.running t = .putting key value (.unlocking result)) :
    SerialInv P initial {
      system := s.system.take t (putTurn P s.system.store key value (.unlocking result))
      writes := s.writes } := by
  have hwriter : s.system.writer = some t := (h.holds t).mp (by rw [hrun]; rfl)
  have hnone : (s.system.take t (putTurn P s.system.store key value (.unlocking result))).writer = none := by
    show (if false = true then some t else if s.system.writer = some t then none else s.system.writer) = none
    rw [if_neg Bool.false_ne_true, if_pos hwriter]
  obtain ⟨before, hwrites, hput⟩ := (h.held t hwriter).unlocking hrun
  refine ⟨h.rows_take ⟨rfl, rfl⟩ (fun key' value' row heq => by cases heq),
    holds_take h.holds rfl (fun hlocked => by cases hlocked), ?_, ?_⟩
  · intro _
    show s.system.store = sequential P initial s.writes
    rw [hwrites, sequential_append]
    show s.system.store = (StorageEngine.put P {} (sequential P initial before) key value).1
    rw [hput]
  · intro t' hheld
    rw [hnone] at hheld
    cases hheld

theorem writes_take (s : Writers Tid) (t : Tid) (turn : Turn) :
    ((s.system.take t turn).history.drop s.system.history.length).filterMap insertedWrite
      = turn.entries.filterMap fun entry => insertedWrite (t, entry) := by
  unfold System.take
  rw [List.drop_left, List.filterMap_map]
  rfl

theorem SerialInv.advance (h : SerialInv P initial s) (t : Tid) :
    SerialInv P initial (s.step P (.turn (.advance t))) := by
  have hsame : SerialInv P initial
      { system := s.system
        writes := s.writes ++ (s.system.history.drop s.system.history.length).filterMap insertedWrite } := by
    rw [List.drop_length, List.filterMap_nil, List.append_nil]
    exact h
  show SerialInv P initial
    { system := s.system.advance P t
      writes := s.writes ++ ((s.system.advance P t).history.drop s.system.history.length).filterMap insertedWrite }
  unfold System.advance
  split_ifs with hwaits
  · exact hsame
  cases hrun : s.system.running t with
  | idle => exact hsame
  | getting key phase =>
    have hbefore : (s.system.running t).holdsLock = false := by
      rw [hrun]
      rfl
    dsimp only [turn]
    rw [writes_take]
    rcases getTurn_cases P s.system.store key phase with ⟨phase', hturn, -⟩ | ⟨result, hturn⟩
    · rw [hturn]
      simpa using h.aside hbefore rfl rfl rfl fun key' value' row heq => by cases heq
    · rw [hturn]
      simpa [insertedWrite] using h.aside hbefore rfl rfl rfl fun key' value' row heq => by cases heq
  | putting key value phase =>
    dsimp only [turn]
    rw [writes_take]
    cases phase with
    | compressing =>
      have hbefore : (s.system.running t).holdsLock = false := by
        rw [hrun]
        rfl
      unfold putTurn
      dsimp only
      cases hrow : compressRow s.system.store.engine key value with
      | error fault =>
        simpa [insertedWrite] using h.aside hbefore rfl rfl rfl fun key' value' row heq => by cases heq
      | ok row =>
        have hrow' : ∀ key' value' row',
            Running.putting key value (.locking row) = .putting key' value' (.locking row') →
            compressRow s.system.store.engine key' value' = .ok row' := by
          intro key' value' row' heq
          cases heq
          exact hrow
        simpa using h.aside hbefore (rfl : (⟨s.system.store, false, _, []⟩ : Turn).store = _) rfl rfl hrow'
    | locking row =>
      have hnone : s.system.writer = none := by
        rw [hrun] at hwaits
        simpa [Running.wantsLock] using hwaits
      exact h.locking hrun hnone
    | unlocking result => simpa [putTurn, insertedWrite] using h.unlocking hrun
    | _ =>
      have hwriter : s.system.writer = some t := (h.holds t).mp (by rw [hrun]; rfl)
      obtain ⟨s', phase', hturn, -⟩ := putTurn_locked P s.system.store key value
        (by rw [← hrun]; exact (h.holds t).mpr hwriter) (by intro result heq; cases heq)
      have hunder := h.under hrun hwriter (by intro result heq; cases heq)
      rw [hturn] at hunder ⊢
      simpa using hunder

theorem SerialInv.begin (h : SerialInv P initial s) (hidle : s.system.running t = .idle) (running : Running)
    (hlocked : running.holdsLock = false) (hrow : ∀ key value row, running ≠ .putting key value (.locking row))
    (history : List (Tid × Happening)) :
    SerialInv P initial
      { system := { s.system with running := Function.update s.system.running t running, history := history }
        writes := s.writes } := by
  have hother : ∀ t', s.system.writer = some t' → t' ≠ t := by
    rintro t' hwriter rfl
    have hholds := (h.holds t').mpr hwriter
    rw [hidle] at hholds
    cases hholds
  refine ⟨?_, ?_, h.free, ?_⟩
  · intro t' key value row hrun
    change Function.update s.system.running t running t' = _ at hrun
    by_cases hne : t' = t
    · subst hne
      rw [Function.update_self] at hrun
      exact absurd hrun (hrow key value row)
    · rw [Function.update_of_ne hne] at hrun
      exact h.rows t' key value row hrun
  · intro t'
    show (Function.update s.system.running t running t').holdsLock = true ↔ _
    by_cases hne : t' = t
    · subst hne
      rw [Function.update_self, hlocked]
      exact iff_of_false Bool.false_ne_true fun hwriter => hother t' hwriter rfl
    · rw [Function.update_of_ne hne]
      exact h.holds t'
  · intro t' hwriter
    obtain ⟨before, key, value, phase, hwrites, hrun, halone⟩ := h.held t' hwriter
    refine ⟨before, key, value, phase, hwrites, ?_, halone⟩
    show Function.update s.system.running t running t' = _
    rw [Function.update_of_ne (hother t' hwriter), hrun]

omit [DecidableEq Tid] in
theorem SerialInv.remove (h : SerialInv P initial s) (hnone : s.system.writer = none) (t : Tid) (key : Key) :
    SerialInv P initial
      { system := { s.system with store := StorageEngine.remove s.system.store key }
        writes := s.writes ++ [(t, .remove key)] } := by
  refine ⟨h.rows, h.holds, ?_, ?_⟩
  · intro _
    rw [sequential_append, ← h.free hnone]
    rfl
  · intro t' hwriter
    change s.system.writer = some t' at hwriter
    rw [hnone] at hwriter
    cases hwriter

theorem SerialInv.step (h : SerialInv P initial s) (action : WriterAction Tid) :
    SerialInv P initial (s.step P action) := by
  cases action with
  | remove t key =>
    simp only [Writers.step]
    split
    next hwriter => exact h.remove hwriter t key
    next => exact h
  | turn action =>
    cases action with
    | advance t => exact h.advance t
    | put t key value =>
      unfold Writers.step System.step
      cases hrun : s.system.running t with
      | idle =>
        have hbegin := h.begin hrun (.putting key value .compressing) rfl
          (fun key' value' row heq => by cases heq) (s.system.history ++ [(t, .invokePut key value)])
        simpa [hrun, List.filterMap_cons, insertedWrite] using hbegin
      | _ => simpa [hrun] using h
    | get t key =>
      unfold Writers.step System.step
      cases hrun : s.system.running t with
      | idle =>
        have hbegin := h.begin hrun (.getting key .searching) rfl
          (fun key' value' row heq => by cases heq) (s.system.history ++ [(t, .invokeGet key)])
        simpa [hrun, List.filterMap_cons, insertedWrite] using hbegin
      | _ => simpa [hrun] using h

/-- The put that holds the lock comes to give it back, and writes nothing else. -/
theorem SerialInv.exists_free (h : SerialInv P initial s) (hwriter : s.system.writer = some t) :
    ∃ n, (Runs.run (Writers.step P) s (List.replicate n (.turn (.advance t)))).system.writer = none ∧
      (Runs.run (Writers.step P) s (List.replicate n (.turn (.advance t)))).writes = s.writes := by
  induction hleft : toLex ((s.system.running t).rank, (s.system.running t).turnsLeft P)
    using WellFoundedLT.induction generalizing s with
  | ind left ih =>
    obtain ⟨-, key, value, phase, -, hrun, -⟩ := h.held t hwriter
    have hlocked : (s.system.running t).holdsLock = true := (h.holds t).mpr hwriter
    have hadvance : s.system.advance P t = s.system.take t (putTurn P s.system.store key value phase) := by
      unfold System.advance
      rw [Running.wantsLock_of_holdsLock hlocked, hrun]
      rfl
    have hstep : s.step P (.turn (.advance t)) =
        { system := s.system.take t (putTurn P s.system.store key value phase)
          writes := s.writes ++ (putTurn P s.system.store key value phase).entries.filterMap fun entry =>
            insertedWrite (t, entry) } := by
      rw [← writes_take, ← hadvance]
      rfl
    by_cases hlast : ∃ result, phase = .unlocking result
    · obtain ⟨result, rfl⟩ := hlast
      refine ⟨1, ?_, ?_⟩
      · rw [List.replicate_one, Runs.run_cons, Runs.run_nil, hstep]
        show (if false = true then some t else if s.system.writer = some t then none else s.system.writer) = none
        rw [if_neg Bool.false_ne_true, if_pos hwriter]
      · rw [List.replicate_one, Runs.run_cons, Runs.run_nil, hstep]
        exact List.append_nil s.writes
    · rw [hrun] at hlocked
      obtain ⟨s', phase', hturn, -⟩ := putTurn_locked P s.system.store key value hlocked
        fun result heq => hlast ⟨result, heq⟩
      have hless := turn_decreases P s.system.store
        (show OmxDb.turn P s.system.store (s.system.running t) = some (putTurn P s.system.store key value phase) by
          rw [hrun]
          rfl)
      have hnext := h.advance t
      rw [hstep, hturn] at hnext
      rw [hturn] at hless hstep
      have hrun' : (s.system.take t ⟨s', true, .putting key value phase', []⟩).running t = .putting key value phase' :=
        Function.update_self ..
      have hbefore : toLex ((Running.putting key value phase').rank, (Running.putting key value phase').turnsLeft P)
          < left := by
        rw [← hleft, Prod.Lex.toLex_lt_toLex]
        exact hless
      obtain ⟨n, hfree, hwrites⟩ := ih _ hbefore hnext rfl (by rw [hrun'])
      refine ⟨n + 1, ?_, ?_⟩
      · rw [List.replicate_succ, Runs.run_cons, hstep]
        exact hfree
      · rw [List.replicate_succ, Runs.run_cons, hstep]
        exact hwrites.trans (List.append_nil s.writes)

/-- Whatever puts, gets and removes of many threads do between each other: where no put holds the lock, the store is
the one that the writes leave one after another, in the order in which they took the lock, and so is at the end of a
history with these writes. A put returns what it does there, and the put that holds the lock gives it back after
finitely many turns. -/
theorem writes_serialise (P : Platform) (initial : Store) (actions : List (WriterAction Tid)) :
    let s := Runs.run (Writers.step P) { system := { store := initial } } actions
    (s.system.writer = none → s.system.store = sequential P initial s.writes ∧
        ∃ snapshots, Runs.run (step P) ⟨initial.disk, some initial.engine, []⟩
          (s.writes.map fun write => write.2.event) = ⟨s.system.store.disk, some s.system.store.engine, snapshots⟩) ∧
      (∀ t key value result, s.system.running t = .putting key value (.unlocking result) →
        ∃ before, s.writes = before ++ [(t, .put key value)] ∧
          StorageEngine.put P {} (sequential P initial before) key value = (s.system.store, result)) ∧
      (∀ t, s.system.writer = some t → ∃ n,
        (Runs.run (Writers.step P) s (List.replicate n (.turn (.advance t)))).system.writer = none ∧
          (Runs.run (Writers.step P) s (List.replicate n (.turn (.advance t)))).writes = s.writes) := by
  intro s
  have hinv : SerialInv P initial s :=
    Runs.run_inv (SerialInv P initial) (fun s action h _ => h.step action)
      (Runs.Meets.of_forall (Writers.step P) _ fun action _ => trivial) (serialInv_initial P initial)
  refine ⟨?_, ?_, fun t hwriter => hinv.exists_free hwriter⟩
  · intro hfree
    have hstore := hinv.free hfree
    obtain ⟨snapshots, hrun⟩ := exists_run_events P initial s.writes []
    rw [← hstore] at hrun
    exact ⟨hstore, snapshots, hrun⟩
  · intro t key value result hrun
    exact (hinv.held t ((hinv.holds t).mp (by rw [hrun]; rfl))).unlocking hrun

end serial

end OmxDb
