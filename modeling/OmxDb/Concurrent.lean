import OmxDb.History
import OmxDb.Lib.Histories

/-!
# Calls in turns

`put` and `get` of any number of threads on one store, each taken apart into the turns between which other threads
have theirs. A put compresses before it takes the exclusive lock and keeps the lock through its snapshot; a get takes
the shared lock for the lookup in the memtable and again for the lookup in the index, and tests filter bits and reads
the segment file without it. A thread that needs the lock while a put holds it does nothing. The history records when
calls begin and return, and when a put inserts its row.

The turns of one call after another are the call: `put_alone` and `get_alone`.
-/

namespace OmxDb

open StorageEngine

/-! ### Turns of a call -/

/-- Where a put is. From `checking` on it holds the lock. -/
inductive PutPhase where
  | compressing
  | locking (row : SSTableRow)
  | checking
  | dumping (segment : Nat) (table : SSTable)
  | clearing (segment : Nat) (table : SSTable)
  | adding (segment : Nat) (table : SSTable) (rest : List (Fin kFilterSize))
  | dumpingFilter (segment : Nat) (table : SSTable)
  | dumpingIndex (segment : Nat) (table : SSTable)
  | updating (segment : Nat) (table : SSTable)
  | unlocking (result : Except Fault Unit)

/-- Where a get is. -/
inductive GetPhase where
  | searching
  | testing (rest : List (Fin kFilterSize))
  | indexing
  | reading (hint : SearchHint)
  | finishing (found : Option (ByteString × UInt128))

/-- What a thread is doing. -/
inductive Running where
  | idle
  | putting (key : Key) (value : ByteString) (phase : PutPhase)
  | getting (key : Key) (phase : GetPhase)

def Running.wantsLock : Running → Bool
  | .putting _ _ (.locking _) => true
  | .getting _ .searching => true
  | .getting _ .indexing => true
  | _ => false

/-- An entry of the history. -/
inductive Happening where
  | invokePut (key : Key) (value : ByteString)
  | insert (key : Key) (value : ByteString)
  | returnPut (key : Key) (result : Except Fault Unit)
  | invokeGet (key : Key)
  | returnGet (key : Key) (result : Except Fault (Option ByteString))
deriving DecidableEq

/-- What a thread leaves behind: the store, whether it holds the lock, where it is, and what it recorded. -/
@[ext] structure Turn where
  store : Store
  holds : Bool
  running : Running
  entries : List Happening := []

/-- What `put` does before it takes the lock. -/
def compressRow (e : StorageEngine) (key : Key) (value : ByteString) : Except Fault SSTableRow :=
  match e.compressor with
  | none => .error .nullPointer
  | some compressor =>
    match compressor.compress value with
    | .error fault => .error fault
    | .ok compressed =>
      match e.hasher with
      | none => .error .nullPointer
      | some hasher => .ok ⟨key, compressed, .Put, hasher.hash compressed⟩

/-- The positions a snapshot of the table sets, key by key. -/
def addedPositions (P : Platform) (table : SSTable) : List (Fin kFilterSize) :=
  (table.rows.map SSTableRow.key).flatMap fun key => BloomFilter.positions P kNumHashes key

/-- A turn of `put` and, from `checking` to `unlocking`, of its `makeSnapshot`. -/
def putTurn (P : Platform) (s : Store) (key : Key) (value : ByteString) : PutPhase → Turn
  | .compressing =>
    match compressRow s.engine key value with
    | .error fault => { store := s, holds := false, running := .idle, entries := [.returnPut key (.error fault)] }
    | .ok row => { store := s, holds := false, running := .putting key value (.locking row) }
  | .locking row =>
    { store := s.write row, holds := true, running := .putting key value .checking, entries := [.insert key value] }
  | .checking =>
    if snapshotDue s then
      { store := { s with engine := { s.engine with segmentId := s.engine.segmentId + 1 } }
        holds := true
        running := .putting key value
          (.dumping s.engine.segmentId s.engine.memTable.createSortedStringsTable) }
    else { store := s, holds := true, running := .putting key value (.unlocking (.ok ())) }
  | .dumping segment table =>
    { store := { s with disk := s.disk.writeSegment (segmentFile segment) s.engine.memTable.dump }
      holds := true
      running := .putting key value (.clearing segment table) }
  | .clearing segment table =>
    { store := { s with engine := { s.engine with memTable := s.engine.memTable.clear } }
      holds := true
      running := .putting key value (.adding segment table (addedPositions P table)) }
  | .adding segment table (j :: rest) =>
    { store := { s with engine := { s.engine with bloomFilter := s.engine.bloomFilter.setBit j } }
      holds := true
      running := .putting key value (.adding segment table rest) }
  | .adding segment table [] =>
    { store := s, holds := true, running := .putting key value (.dumpingFilter segment table) }
  | .dumpingFilter segment table =>
    { store := { s with disk := s.disk.writeBloom s.engine.bloomFilter.dump }
      holds := true
      running := .putting key value (.dumpingIndex segment table) }
  | .dumpingIndex segment table =>
    let tableIndex := SSTableIndex.ofTable (UInt32.ofNat segment) table
    { store := { s with disk := s.disk.writeIndex (indexFile segment) (tableIndex.dump P) }
      holds := true
      running := .putting key value (.updating segment table) }
  | .updating segment table =>
    match s.engine.index.update (SSTableIndex.ofTable (UInt32.ofNat segment) table) with
    | .error fault => { store := s, holds := true, running := .putting key value (.unlocking (.error fault)) }
    | .ok index =>
      { store := { s with engine := { s.engine with index := index } }
        holds := true
        running := .putting key value (.unlocking (.ok ())) }
  | .unlocking result =>
    { store := s, holds := false, running := .idle, entries := [.returnPut key result] }

/-- A turn of `get`, which leaves the store as it is. -/
def getTurn (P : Platform) (s : Store) (key : Key) : GetPhase → Turn
  | .searching =>
    match findInMemory s key with
    | some found => { store := s, holds := false, running := .getting key (.finishing (some found)) }
    | none =>
      { store := s, holds := false, running := .getting key (.testing (BloomFilter.positions P kNumHashes key)) }
  | .testing (j :: rest) =>
    if s.engine.bloomFilter.bits j = 0 then
      { store := s, holds := false, running := .getting key (.finishing none) }
    else { store := s, holds := false, running := .getting key (.testing rest) }
  | .testing [] => { store := s, holds := false, running := .getting key .indexing }
  | .indexing =>
    match s.engine.index.get key with
    | none => { store := s, holds := false, running := .getting key (.finishing none) }
    | some hint => { store := s, holds := false, running := .getting key (.reading hint) }
  | .reading hint =>
    match readRow P s.disk hint with
    | .error fault => { store := s, holds := false, running := .idle, entries := [.returnGet key (.error fault)] }
    | .ok row => { store := s, holds := false, running := .getting key (.finishing (visible row)) }
  | .finishing found =>
    { store := s, holds := false, running := .idle, entries := [.returnGet key (finishGet s.engine found)] }

/-- The turn of a thread, where it has one. -/
def turn (P : Platform) (s : Store) : Running → Option Turn
  | .idle => none
  | .putting key value phase => some (putTurn P s key value phase)
  | .getting key phase => some (getTurn P s key phase)

/-! ### Threads -/

/-- A store, the put that holds its lock, what the threads are doing, and what has happened. -/
structure System (Tid : Type*) where
  store : Store
  writer : Option Tid := none
  running : Tid → Running := fun _ => .idle
  history : List (Tid × Happening) := []

/-- A thread begins a call or goes on with the one it is in. -/
inductive Action (Tid : Type*) where
  | put (t : Tid) (key : Key) (value : ByteString)
  | get (t : Tid) (key : Key)
  | advance (t : Tid)

namespace System

variable {Tid : Type*} [DecidableEq Tid]

/-- The system after a turn of the thread. -/
def take (sys : System Tid) (t : Tid) (turn : Turn) : System Tid where
  store := turn.store
  writer := if turn.holds then some t else if sys.writer = some t then none else sys.writer
  running := Function.update sys.running t turn.running
  history := sys.history ++ turn.entries.map fun entry => (t, entry)

/-- A thread that wants the lock waits while another holds it. -/
def advance (P : Platform) (sys : System Tid) (t : Tid) : System Tid :=
  if (sys.running t).wantsLock && sys.writer.isSome then sys
  else match turn P sys.store (sys.running t) with
    | none => sys
    | some turn => sys.take t turn

def step (P : Platform) (sys : System Tid) : Action Tid → System Tid
  | .put t key value =>
    match sys.running t with
    | .idle =>
      { sys with
        running := Function.update sys.running t (.putting key value .compressing)
        history := sys.history ++ [(t, .invokePut key value)] }
    | _ => sys
  | .get t key =>
    match sys.running t with
    | .idle =>
      { sys with
        running := Function.update sys.running t (.getting key .searching)
        history := sys.history ++ [(t, .invokeGet key)] }
    | _ => sys
  | .advance t => sys.advance P t

end System

/-! ### Calls without interruption -/

/-- The next turn of a thread that is alone. -/
def Turn.next (P : Platform) (current : Turn) : Turn :=
  match turn P current.store current.running with
  | none => current
  | some turn => { turn with entries := current.entries ++ turn.entries }

/-- A thread that is alone gets from the one turn to the other. -/
def Alone (P : Platform) (first last : Turn) : Prop := ∃ n, (Turn.next P)^[n] first = last

section alone

variable {P : Platform} {first middle last : Turn}

theorem Alone.refl (P : Platform) (first : Turn) : Alone P first first := ⟨0, rfl⟩

theorem Alone.cons (h : Alone P (first.next P) last) : Alone P first last := by
  obtain ⟨n, hn⟩ := h
  exact ⟨n + 1, hn⟩

theorem Alone.trans (h : Alone P first middle) (h' : Alone P middle last) : Alone P first last := by
  obtain ⟨n, hn⟩ := h
  obtain ⟨n', hn'⟩ := h'
  refine ⟨n' + n, ?_⟩
  rw [Function.iterate_add_apply, hn, hn']

variable (s : Store) (key : Key) (value : ByteString)

theorem Alone.adding (segment : Nat) (table : SSTable) (rest : List (Fin kFilterSize)) :
    Alone P { store := s, holds := true, running := .putting key value (.adding segment table rest) }
      { store := { s with engine := { s.engine with
          bloomFilter := rest.foldl BloomFilter.setBit s.engine.bloomFilter } }
        holds := true
        running := .putting key value (.dumpingFilter segment table) } := by
  induction rest generalizing s with
  | nil => exact Alone.cons (Alone.refl P _)
  | cons j rest ih => exact Alone.cons (ih _)

theorem Alone.makeSnapshot (hdue : snapshotDue s = true) :
    Alone P { store := s, holds := true, running := .putting key value .checking }
      { store := (StorageEngine.makeSnapshot P {} s).1
        holds := true
        running := .putting key value (.unlocking (StorageEngine.makeSnapshot P {} s).2) } := by
  refine Alone.cons ?_
  dsimp only [Turn.next, turn, putTurn]
  rw [if_pos hdue]
  refine Alone.cons (Alone.cons ?_)
  refine (Alone.adding _ key value _ _ _).trans ?_
  refine Alone.cons (Alone.cons (Alone.cons ?_))
  dsimp only [Turn.next, turn, putTurn]
  unfold StorageEngine.makeSnapshot snapshotSegment snapshotBloom snapshotIndex
  rw [addedPositions, ← BloomFilter.addAll_eq_foldl]
  simp only [if_true]
  cases hupdate : s.engine.index.update (SSTableIndex.ofTable (UInt32.ofNat s.engine.segmentId)
    s.engine.memTable.createSortedStringsTable) with
  | error fault => exact Alone.refl P _
  | ok index => exact Alone.refl P _

theorem putRow_eq_compressRow : putRow s key value = (compressRow s.engine key value).map s.write := by
  cases hcompressor : s.engine.compressor with
  | none =>
    simp only [putRow, compressRow, hcompressor]
    rfl
  | some compressor =>
    cases hcompress : compressor.compress value with
    | error fault =>
      simp only [putRow, compressRow, hcompressor, hcompress]
      rfl
    | ok compressed =>
      cases hhasher : s.engine.hasher with
      | none =>
        simp only [putRow, compressRow, hcompressor, hcompress, hhasher]
        rfl
      | some hasher =>
        rw [putRow_eq key hcompressor hhasher hcompress]
        simp only [compressRow, hcompressor, hcompress, hhasher]
        rfl

theorem Alone.prepend {first last : Turn} (h : Alone P first last) (entries : List Happening) :
    Alone P { first with entries := entries ++ first.entries } { last with entries := entries ++ last.entries } := by
  obtain ⟨n, rfl⟩ := h
  refine ⟨n, ?_⟩
  induction n generalizing first with
  | zero => rfl
  | succ n ih =>
    rw [Function.iterate_succ_apply, Function.iterate_succ_apply, ← ih]
    congr 1
    unfold Turn.next
    dsimp only
    cases turn P first.store first.running with
    | none => rfl
    | some turn =>
      dsimp only
      rw [List.append_assoc]

/-- The turns of a put, nobody's between them, are `put`. -/
theorem put_alone : ∃ began, Alone P { store := s, holds := false, running := .putting key value .compressing }
    { store := (StorageEngine.put P {} s key value).1
      holds := false
      running := .idle
      entries := began ++ [.returnPut key (StorageEngine.put P {} s key value).2] } := by
  unfold StorageEngine.put
  rw [putRow_eq_compressRow]
  cases hrow : compressRow s.engine key value with
  | error fault =>
    refine ⟨[], Alone.cons ?_⟩
    dsimp only [Turn.next, turn, putTurn]
    rw [hrow]
    exact Alone.refl P _
  | ok row =>
    refine ⟨[.insert key value], Alone.cons ?_⟩
    dsimp only [Turn.next, turn, putTurn, Except.map]
    rw [hrow]
    refine Alone.cons ?_
    dsimp only [Turn.next, turn, putTurn]
    cases hdue : snapshotDue (s.write row) with
    | true =>
      simp only [if_true]
      exact ((Alone.makeSnapshot (s.write row) key value hdue).prepend [.insert key value]).trans
        (Alone.cons (Alone.refl P _))
    | false =>
      refine Alone.cons ?_
      dsimp only [Turn.next, turn, putTurn]
      rw [hdue]
      exact Alone.cons (Alone.refl P _)

theorem Alone.testing (rest : List (Fin kFilterSize)) :
    Alone P { store := s, holds := false, running := .getting key (.testing rest) }
      { store := s
        holds := false
        running := .getting key
          (if ∀ j ∈ rest, s.engine.bloomFilter.bits j ≠ 0 then .indexing else .finishing none) } := by
  induction rest with
  | nil =>
    rw [if_pos fun j hj => absurd hj List.not_mem_nil]
    exact Alone.cons (Alone.refl P _)
  | cons j rest ih =>
    refine Alone.cons ?_
    dsimp only [Turn.next, turn, getTurn]
    by_cases hbit : s.engine.bloomFilter.bits j = 0
    · rw [if_pos hbit, if_neg (fun hall => hall j (List.mem_cons_self ..) hbit)]
      exact Alone.refl P _
    · rw [if_neg hbit]
      simp only [List.forall_mem_cons, ne_eq, hbit, not_false_eq_true, true_and]
      exact ih

/-- The turns of a get, nobody's between them, are `get`. -/
theorem get_alone : Alone P { store := s, holds := false, running := .getting key .searching }
    { store := s
      holds := false
      running := .idle
      entries := [.returnGet key (StorageEngine.get P s key)] } := by
  refine Alone.cons ?_
  unfold StorageEngine.get
  dsimp only [Turn.next, turn, getTurn]
  cases hmemory : findInMemory s key with
  | some found => exact Alone.cons (Alone.refl P _)
  | none =>
    refine (Alone.testing s key _).trans ?_
    unfold findOnDisk
    by_cases hfilter : s.engine.bloomFilter.probablyContains P key = true
    · rw [if_pos hfilter, if_pos (BloomFilter.probablyContains_iff_positions.mp hfilter)]
      refine Alone.cons ?_
      dsimp only [Turn.next, turn, getTurn]
      cases hindex : s.engine.index.get key with
      | none => exact Alone.cons (Alone.refl P _)
      | some hint =>
        refine Alone.cons ?_
        dsimp only [Turn.next, turn, getTurn]
        cases hread : readRow P s.disk hint with
        | error fault => exact Alone.refl P _
        | ok row => exact Alone.cons (Alone.refl P _)
    · rw [if_neg hfilter, if_neg (fun hall => hfilter (BloomFilter.probablyContains_iff_positions.mpr hall))]
      exact Alone.cons (Alone.refl P _)

end alone

end OmxDb
