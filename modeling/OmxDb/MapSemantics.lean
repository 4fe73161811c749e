import OmxDb.History

/-!
# One session as a map

The calls of one session against the map they should implement. A `Session` carries the store, the map and
the map as it was when the last snapshot was taken. The invariant is that the rows a store stands for decode
to the map, and the rows of its segments to the map at the last snapshot; `get` then answers from the one or
the other (`get_session`). A tombstone in the memtable does not end the search, so the two must agree on
removed keys: `answers_iff`.
-/

namespace OmxDb

open StorageEngine

/-! ### Calls -/

inductive Call where
  | put (key : Key) (value : ByteString)
  | remove (key : Key)
  | get (key : Key)
  | handle (request : Request)

/-- What a call asks for. -/
inductive Operation where
  | put (key : Key) (value : ByteString)
  | remove (key : Key)
  | read

def requestOperation (request : Request) : Operation :=
  if request.requestType = .Put then .put request.key request.value
  else if request.requestType = .Delete then .remove request.key
  else .read

def Call.operation : Call → Operation
  | .put key value => .put key value
  | .remove key => .remove key
  | .get _ => .read
  | .handle request => requestOperation request

def Operation.apply : Operation → (Key → Option ByteString) → Key → Option ByteString
  | .put key value, contents => Function.update contents key (some value)
  | .remove key, contents => Function.update contents key none
  | .read, contents => contents

/-- The store after a call. -/
def Call.store (P : Platform) (s : Store) : Call → Store
  | .put key value => (StorageEngine.put P {} s key value).1
  | .remove key => StorageEngine.remove s key
  | .get _ => s
  | .handle request => (StorageEngine.handle P {} s request).1

/-- Whether a call takes a snapshot. -/
def Operation.takesSnapshot (s : Store) : Operation → Bool
  | .put key value =>
    match putRow s key value with
    | .error _ => false
    | .ok s => snapshotDue s
  | _ => false

/-- A store, the map its calls amount to, and that map at the last snapshot. -/
structure Session where
  store : Store
  contents : Key → Option ByteString := fun _ => none
  flushed : Key → Option ByteString := fun _ => none

def Session.call (P : Platform) (t : Session) (call : Call) : Session where
  store := call.store P t.store
  contents := call.operation.apply t.contents
  flushed := if call.operation.takesSnapshot t.store then call.operation.apply t.contents else t.flushed

/-- The store after what a call asks for, however it was asked. -/
def Operation.store (P : Platform) (s : Store) : Operation → Store
  | .put key value => (StorageEngine.put P {} s key value).1
  | .remove key => StorageEngine.remove s key
  | .read => s

theorem catchException_store (s : Store) (fault : Fault) : (catchException s fault).1 = s := by
  unfold catchException
  split <;> rfl

theorem handle_store (P : Platform) (s : Store) (request : Request) :
    (StorageEngine.handle P {} s request).1 = (requestOperation request).store P s := by
  unfold StorageEngine.handle requestOperation
  by_cases hget : request.requestType = .Get
  · rw [if_pos hget, hget, if_neg (by decide), if_neg (by decide)]
    dsimp only [Operation.store]
    split
    · exact catchException_store _ _
    · rfl
    · rfl
  · rw [if_neg hget]
    by_cases hput : request.requestType = .Put
    · rw [if_pos hput, if_pos hput]
      dsimp only [Operation.store]
      split
      next s' fault heq => rw [catchException_store, heq]
      next s' heq => rw [heq]
    · rw [if_neg hput, if_neg hput]
      by_cases hdelete : request.requestType = .Delete
      · rw [if_pos hdelete, if_pos hdelete]
        rfl
      · rw [if_neg hdelete, if_neg hdelete]
        rfl

theorem Call.store_eq (P : Platform) (s : Store) (call : Call) :
    call.store P s = call.operation.store P s := by
  cases call with
  | handle request => exact handle_store P s request
  | _ => rfl

/-! ### What the calls rely on -/

/-- The configured compressor gives a value back that is put. -/
def RoundTrips (t : Session) (call : Call) : Prop :=
  ∀ key value, call.operation = .put key value → GivesBack t.store.engine value

/-- A snapshot the call takes has a 32-bit number, a key other than `npos` to start from, and rows that start
before byte `2 ^ 32` and are shorter than that. -/
def SnapshotFits (t : Session) (call : Call) : Prop :=
  ∀ key value s, call.operation = .put key value → putRow t.store key value = .ok s → snapshotDue s = true →
    s.engine.segmentId < 2 ^ 32 ∧ s.engine.memTable.HasOrdinaryKey ∧
      RowsFit s.engine.memTable.createSortedStringsTable.rows

def getResponse : Option ByteString → Response
  | some value => Response.make .Ok value
  | none => Response.make .NotFound ByteString.empty

/-- `get`, called directly or through `handle`, answers what the map holds. -/
def Answers (P : Platform) (t : Session) (key : Key) : Prop :=
  StorageEngine.get P t.store key = .ok (t.contents key) ∧
    ∀ value, (StorageEngine.handle P {} t.store (Request.make .Get key value)).2
      = .ok (getResponse (t.contents key))

/-- The key was live at the last snapshot and is not live now. -/
def RemovedSinceSnapshot (t : Session) (key : Key) : Prop :=
  t.contents key = none ∧ t.flushed key ≠ none

/-! ### Rows and values -/

/-- What a `get` that finds the row answers. -/
def StandsFor (e : StorageEngine) (row : Option SSTableRow) (value : Option ByteString) : Prop :=
  finishGet e (row.bind visible) = .ok value

theorem finishGet_eq_none {e : StorageEngine} {row : Option (ByteString × UInt128)} :
    finishGet e row = .ok none ↔ row = none := by
  cases row with
  | none => simp [finishGet]
  | some row =>
    obtain ⟨compressed, checksum⟩ := row
    simp only [finishGet, reduceCtorEq, iff_false]
    intro h
    split at h
    · cases h
    · split_ifs at h
      split at h
      · cases h
      · next compressor _ =>
        cases huncompress : compressor.uncompress compressed <;> rw [huncompress] at h <;> cases h

theorem StandsFor.eq_none_iff {e : StorageEngine} {row : Option SSTableRow} {value : Option ByteString}
    (h : StandsFor e row value) : value = none ↔ row.bind visible = none := by
  unfold StandsFor at h
  rw [← finishGet_eq_none (e := e), h, Except.ok.injEq]

/-! ### The invariant -/

/-- The rows of the store decode to the map, those of its segments to the map at the last snapshot. -/
structure SessionInv (P : Platform) (options : Options) (t : Session) (segs : List Segment) : Prop where
  opts : t.store.engine.opts = options
  sound : Sound P t.store segs
  numbers : ∀ seg ∈ segs, seg.fileId.toNat < t.store.engine.segmentId
  contents : ∀ key, StandsFor t.store.engine
    ((t.store.engine.memTable.findRow key).or (newestRow segs key)) (t.contents key)
  flushed : ∀ key, StandsFor t.store.engine (newestRow segs key) (t.flushed key)

/-- A `get` is answered from the map unless the newest row is a tombstone in the memtable. -/
theorem get_session {P : Platform} {options : Options} {t : Session} {segs : List Segment}
    (h : SessionInv P options t segs) (key : Key) :
    StorageEngine.get P t.store key
      = .ok (if t.contents key = none then t.flushed key else t.contents key) := by
  have hcontents := h.contents key
  have hflushed := h.flushed key
  rw [get_eq (h.sound.at key)]
  unfold found
  cases hfind : t.store.engine.memTable.findRow key with
  | none =>
    rw [hfind, Option.none_or] at hcontents
    have heq : t.contents key = t.flushed key := Except.ok.inj (hcontents.symm.trans hflushed)
    rw [Option.bind_none, Option.none_or, hflushed, heq]
    split_ifs <;> rfl
  | some row =>
    rw [hfind, Option.some_or] at hcontents
    have hnone := hcontents.eq_none_iff
    cases hvisible : visible row with
    | none =>
      rw [Option.bind_some, hvisible] at hnone ⊢
      rw [if_pos (hnone.mpr rfl), Option.none_or, hflushed]
    | some found =>
      have hcontents' := hcontents
      unfold StandsFor at hcontents'
      rw [Option.bind_some, hvisible] at hnone hcontents' ⊢
      rw [if_neg (fun h => Option.some_ne_none _ (hnone.mp h)), Option.some_or, hcontents']

theorem handle_get (P : Platform) (s : Store) (key : Key) (value : ByteString)
    {result : Option ByteString} (h : StorageEngine.get P s key = .ok result) :
    (StorageEngine.handle P {} s (Request.make .Get key value)).2 = .ok (getResponse result) := by
  unfold StorageEngine.handle Request.make
  dsimp only
  rw [if_pos rfl, h]
  cases result <;> rfl

theorem answers_iff_of_inv {P : Platform} {options : Options} {t : Session} {segs : List Segment}
    (h : SessionInv P options t segs) (key : Key) : Answers P t key ↔ ¬ RemovedSinceSnapshot t key := by
  have hget := get_session h key
  unfold Answers RemovedSinceSnapshot
  constructor
  · rintro ⟨heq, -⟩ ⟨hnone, hlive⟩
    rw [hget, if_pos hnone, hnone] at heq
    exact hlive (Except.ok.inj heq)
  · intro hnot
    have heq : StorageEngine.get P t.store key = .ok (t.contents key) := by
      rw [hget]
      split_ifs with hnone
      · rw [hnone]
        by_contra hne
        exact hnot ⟨hnone, fun h => hne (by rw [h])⟩
      · rfl
    exact ⟨heq, fun value => handle_get P t.store key value heq⟩

theorem or_writeRow (m : MemTable) (row : SSTableRow) (segs : List Segment) (key : Key) :
    ((m.writeRow row).findRow key).or (newestRow segs key)
      = if row.key = key then some row else (m.findRow key).or (newestRow segs key) := by
  rw [MemTable.findRow_writeRow]
  split_ifs <;> simp

section step

variable {P : Platform} {options : Options} {t : Session} {segs : List Segment}

theorem SessionInv.write (h : SessionInv P options t segs) (row : SSTableRow) (value : Option ByteString)
    (hvalue : StandsFor t.store.engine (some row) value) :
    SessionInv P options
      { t with store := t.store.write row, contents := Function.update t.contents row.key value } segs where
  opts := h.opts
  sound := h.sound.write row
  numbers := h.numbers
  contents key := by
    show StandsFor t.store.engine
      (((t.store.engine.memTable.writeRow row).findRow key).or (newestRow segs key))
      (Function.update t.contents row.key value key)
    rw [or_writeRow]
    by_cases hkey : row.key = key
    · subst hkey
      rw [if_pos rfl, Function.update_self]
      exact hvalue
    · rw [if_neg hkey, Function.update_of_ne (Ne.symm hkey)]
      exact h.contents key
  flushed := h.flushed

/-- A snapshot that fits makes the map the map at the last snapshot. -/
theorem SessionInv.makeSnapshot (h : SessionInv P options t segs) (hword : t.store.engine.segmentId < 2 ^ 32)
    (hordinary : t.store.engine.memTable.HasOrdinaryKey)
    (hfit : RowsFit t.store.engine.memTable.createSortedStringsTable.rows) :
    ∃ s, StorageEngine.makeSnapshot P {} t.store = (s, .ok ()) ∧
      SessionInv P options { store := s, contents := t.contents, flushed := t.contents }
        (Segment.ofMemTable t.store.engine.memTable t.store.engine.segmentId hfit :: segs) := by
  obtain ⟨s, hrun, hsound, hmemTable, hopts, hsegmentId⟩ :=
    makeSnapshot_success h.sound hword
      (h.sound.numberFree_iff.mpr fun seg hseg => ne_of_lt (h.numbers seg hseg)) hfit
  have hstands : ∀ key, StandsFor s.engine (newestRow (Segment.ofMemTable t.store.engine.memTable
      t.store.engine.segmentId hfit :: segs) key) (t.contents key) := by
    intro key
    unfold StandsFor
    rw [newestRow_snapshot hordinary, h.sound.finishGet_eq hsound hopts]
    exact h.contents key
  refine ⟨s, hrun, ?_⟩
  exact {
    opts := hopts.trans h.opts
    sound := hsound
    numbers := by
      intro seg hseg
      show seg.fileId.toNat < s.engine.segmentId
      rw [hsegmentId]
      rcases List.mem_cons.mp hseg with rfl | hseg
      · rw [show (Segment.ofMemTable _ _ hfit).fileId.toNat = _ from UInt32.toNat_ofNat_of_lt hword]
        omega
      · have hold := h.numbers seg hseg
        omega
    contents := by
      intro key
      show StandsFor s.engine ((s.engine.memTable.findRow key).or _) _
      rw [hmemTable, MemTable.findRow_clear, Option.none_or]
      exact hstands key
    flushed := hstands }

theorem SessionInv.call (h : SessionInv P options t segs) (hhasher : createHasher P options.hashType ≠ none)
    {call : Call} (hround : RoundTrips t call) (hfits : SnapshotFits t call) :
    ∃ segs', SessionInv P options (t.call P call) segs' := by
  unfold Session.call
  rw [Call.store_eq]
  cases hop : call.operation with
  | read => exact ⟨segs, h⟩
  | remove key => exact ⟨segs, h.write ⟨key, ByteString.empty, .Remove, (0, 0)⟩ none rfl⟩
  | put key value =>
    have hback := hround key value hop
    obtain ⟨hasher, hhasher'⟩ := Option.ne_none_iff_exists'.mp hhasher
    rw [← h.opts, ← h.sound.hasher] at hhasher'
    obtain ⟨compressor, compressed, hcompressor, hcompress, -⟩ := id hback
    have hrow := putRow_eq key hcompressor hhasher' hcompress
    obtain ⟨row, hkey, hwrite, hfound⟩ := exists_row_of_putRow hrow hback
    rw [hwrite] at hrow
    have hwritten := h.write row (some value) hfound
    rw [hkey] at hwritten
    simp only [Operation.store, Operation.apply, Operation.takesSnapshot, StorageEngine.put, hrow]
    cases hdue : snapshotDue (t.store.write row) with
    | false =>
      simp only [Bool.false_eq_true, if_false]
      exact ⟨segs, hwritten⟩
    | true =>
      obtain ⟨hword, hordinary, hfit⟩ := hfits key value _ hop hrow hdue
      obtain ⟨s, hrun, hinv⟩ := hwritten.makeSnapshot hword hordinary hfit
      simp only [if_true]
      rw [hrun]
      exact ⟨_, hinv⟩

end step

/-! ### Sessions on a fresh directory -/

/-- In a session opened on an empty directory, whose values the compressor gives back and whose snapshots
fit, a key is answered as the map has it if and only if it was not live at the last snapshot and removed
since. -/
theorem answers_iff (P : Platform) (options : Options) (disk : Disk) (e : StorageEngine)
    (hopen : StorageEngine.open P {} options {} {} = (disk, .ok e))
    (hhasher : createHasher P options.hashType ≠ none) (calls : List Call)
    (hround : Runs.Meets (Session.call P) RoundTrips { store := ⟨disk, e⟩ } calls)
    (hfits : Runs.Meets (Session.call P) SnapshotFits { store := ⟨disk, e⟩ } calls) (key : Key) :
    Answers P (Runs.run (Session.call P) { store := ⟨disk, e⟩ } calls) key ↔
      ¬ RemovedSinceSnapshot (Runs.run (Session.call P) { store := ⟨disk, e⟩ } calls) key := by
  obtain ⟨s, hopen', hsound, hmemTable, hopts, -, -⟩ := open_eq (persisted_empty P) (by simp) options
    (Or.inl ⟨rfl, rfl⟩) (m := {}) rfl
  rw [hopen] at hopen'
  cases hopen'
  have hinv : ∃ segs, SessionInv P options { store := s } segs := by
    refine ⟨[], hopts, hsound, by simp, ?_, fun key => rfl⟩
    intro key
    rw [hmemTable]
    rfl
  obtain ⟨segs, hfinal⟩ := Runs.run_inv (fun t => ∃ segs, SessionInv P options t segs)
    (fun t call ⟨segs, h⟩ hcond => h.call hhasher hcond.1 hcond.2) (hround.and hfits) hinv
  exact answers_iff_of_inv hfinal key

/-- An empty directory just opened; every put takes a snapshot. -/
def freshSession : Session where
  store :=
    match StorageEngine.open plainPlatform {} plainOptions {} {} with
    | (disk, .ok e) => ⟨disk, e⟩
    | (disk, .error _) => ⟨disk, {}⟩

theorem open_freshSession : StorageEngine.open plainPlatform {} plainOptions {} {}
    = (freshSession.store.disk, .ok freshSession.store.engine) := rfl

/-- A key is put, which takes a snapshot, and removed. -/
def putThenRemove : List Call := [.put ⟨1⟩ (.single 97), .remove ⟨1⟩]

theorem roundTrips_putThenRemove :
    Runs.Meets (Session.call plainPlatform) RoundTrips freshSession putThenRemove := by
  refine ⟨?_, ?_, trivial⟩
  · rintro key value ⟨⟩
    exact ⟨NoCompression, _, rfl, rfl, rfl⟩
  · rintro key value ⟨⟩

theorem snapshotFits_putThenRemove :
    Runs.Meets (Session.call plainPlatform) SnapshotFits freshSession putThenRemove := by
  refine ⟨?_, ?_, trivial⟩
  · rintro key value s ⟨⟩ hrow -
    cases hrow
    refine ⟨by decide, ⟨_, List.mem_singleton.mpr rfl, by decide⟩, ?_⟩
    exact rowsFit_of_length (by decide)
  · rintro key value s ⟨⟩

/-- The key that was put and removed is still found. -/
theorem not_answers_putThenRemove :
    Runs.Meets (Session.call plainPlatform) RoundTrips freshSession putThenRemove ∧
      ¬ Answers plainPlatform (Runs.run (Session.call plainPlatform) freshSession putThenRemove) ⟨1⟩ := by
  refine ⟨roundTrips_putThenRemove, ?_⟩
  rintro ⟨hget, -⟩
  have hfound : StorageEngine.get plainPlatform
      (Runs.run (Session.call plainPlatform) freshSession putThenRemove).store ⟨1⟩
        = .ok (some (.single 97)) := by decide +kernel
  rw [hfound] at hget
  cases hget

theorem answers_putThenRemove_iff :
    Answers plainPlatform (Runs.run (Session.call plainPlatform) freshSession putThenRemove) ⟨1⟩ ↔
      ¬ RemovedSinceSnapshot
        (Runs.run (Session.call plainPlatform) freshSession putThenRemove) ⟨1⟩ :=
  answers_iff plainPlatform plainOptions freshSession.store.disk freshSession.store.engine open_freshSession
    (by decide) putThenRemove roundTrips_putThenRemove snapshotFits_putThenRemove ⟨1⟩

end OmxDb
