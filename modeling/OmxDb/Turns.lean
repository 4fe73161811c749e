import OmxDb.Compression
import OmxDb.Concurrent
import OmxDb.MapSemantics

/-!
# What a turn keeps

What is known of a put and of a get while they are under way. Two maps carry the argument: what the latest puts are,
by the history (`latestPut`), and what they were when the segments were last complete (`flushed`). A get that finds
its key in the memtable answers from the first map as it is then. Otherwise the two maps agree on the key at that
moment, and from then on the second either stays or becomes the first (`GetFacts`): whatever snapshots run until the
get looks into the index, the row it finds there belongs to a moment of the get. A put that holds the lock is
described by where it will be when it releases it (`Writing`), since nobody looks into the memtable or the index
before.
-/

namespace OmxDb

open StorageEngine Histories

/-! ### What a history says -/

section latestPut

variable {Tid : Type*}

/-- The value an entry inserts for the key. -/
def insertion (key : Key) (entry : Tid × Happening) : Option ByteString :=
  match entry.2 with
  | .insert key' value => if key' = key then some value else none
  | _ => none

/-- The value of the latest put of the key. -/
def latestPut (history : List (Tid × Happening)) (key : Key) : Option ByteString :=
  latest (insertion key) history

theorem latestPut_insert (history : List (Tid × Happening)) (t : Tid) (key : Key) (value : ByteString) :
    latestPut (history ++ [(t, .insert key value)]) = Function.update (latestPut history) key (some value) := by
  funext key'
  have hentry : insertion key' (t, Happening.insert key value) = if key = key' then some value else none := rfl
  unfold latestPut
  rw [latest_append_singleton, hentry]
  by_cases hkey : key = key'
  · subst hkey
    rw [Function.update_self, if_pos rfl, Option.some_or]
  · rw [Function.update_of_ne (Ne.symm hkey), if_neg hkey, Option.none_or]

theorem latestPut_append {history entries : List (Tid × Happening)}
    (h : ∀ entry ∈ entries, ∀ key, insertion key entry = none) :
    latestPut (history ++ entries) = latestPut history := by
  funext key
  unfold latestPut
  have hnone : latest (insertion key) entries = none := by
    unfold latest
    rw [List.findSome?_eq_none_iff]
    intro entry hentry
    exact h entry (List.mem_reverse.mp hentry) key
  rw [latest_append, hnone, Option.none_or]

end latestPut

/-! ### Invariants -/

def Running.holdsLock : Running → Bool
  | .idle => false
  | .putting _ _ .compressing => false
  | .putting _ _ (.locking _) => false
  | .putting _ _ _ => true
  | .getting _ _ => false

/-- What is read without the lock: adapters, segment files, filter bits. -/
structure Readable (P : Platform) (options : Options) (s : Store) (segs : List Segment)
    (flushed : Key → Option ByteString) : Prop where
  compressor : s.engine.compressor = some (createCompressor P options.compressionType)
  hasher : s.engine.hasher = createHasher P options.hashType
  files : SegmentFiles s.disk segs
  bits : ∀ key, flushed key ≠ none →
    ∀ j ∈ BloomFilter.positions P kNumHashes key, s.engine.bloomFilter.bits j ≠ 0

/-- The number of the segment file that a put will write. -/
def nextFile (s : Store) : PutPhase → Option Nat
  | .checking => some s.engine.segmentId
  | .dumping segment _ => some segment
  | _ => none

/-- The put that holds the lock writes to no segment file that is read, and will release the lock with the store as
a map again, whose segments and map of the last snapshot are the old ones or those of now. -/
structure Writing (P : Platform) (options : Options) (s : Store) (contents : Key → Option ByteString)
    (segs : List Segment) (flushed : Key → Option ByteString) (key : Key) (value : ByteString)
    (phase : PutPhase) : Prop where
  fresh : ∀ segment, nextFile s phase = some segment → ∀ seg ∈ segs, seg.fileId.toNat ≠ segment
  ahead : ∃ s' segs' flushed',
    Alone P { store := s, holds := true, running := .putting key value phase }
      { store := s', holds := true, running := .putting key value (.unlocking (.ok ())) } ∧
    SessionInv P options { store := s', contents := contents, flushed := flushed' } segs' ∧
    (∀ seg ∈ segs, seg ∈ segs') ∧ (flushed' = flushed ∨ flushed' = contents)

/-- What a put knows where it is. -/
def PutFacts {Tid : Type*} (P : Platform) (options : Options) (e : StorageEngine)
    (history : List (Tid × Happening)) (key : Key) (value : ByteString) : PutPhase → Prop
  | .compressing => key.id ≠ npos ∧ (createCompressor P options.compressionType).ReadsBack value
  | .locking row => key.id ≠ npos ∧ row.key = key ∧ finishGet e (visible row) = .ok (some value)
  | _ => latestPut history key ≠ none

/-- What a get that began there knows where it is. -/
def GetFacts {Tid : Type*} (P : Platform) (e : StorageEngine) (segs : List Segment)
    (flushed : Key → Option ByteString) (began history : List (Tid × Happening)) (key : Key) : GetPhase → Prop
  | .searching => True
  | .testing rest => (∀ j ∈ rest, j ∈ BloomFilter.positions P kNumHashes key) ∧
      ∃ moment, Between began moment history ∧ flushed key = latestPut moment key
  | .indexing => ∃ moment, Between began moment history ∧ flushed key = latestPut moment key
  | .reading hint => ∃ moment, Between began moment history ∧ ∃ seg ∈ segs, ∃ row fileHint,
      seg.find key = some row ∧ seg.tableIndex.get key = some fileHint ∧
      hint = ⟨seg.fileId, fileHint.offset, fileHint.size⟩ ∧
      finishGet e (visible row) = .ok (latestPut moment key)
  | .finishing found => ∃ moment, Between began moment history ∧
      finishGet e found = .ok (latestPut moment key)

/-! ### Turns of a put -/

section put

variable {P : Platform} {options : Options} {s : Store} {contents flushed : Key → Option ByteString}
  {segs : List Segment}

theorem SessionInv.readable (h : SessionInv P options { store := s, contents := contents, flushed := flushed } segs) :
    Readable P options s segs flushed where
  compressor := by rw [← h.opts, h.sound.compressor]
  hasher := by rw [← h.opts, h.sound.hasher]
  files := h.sound.files
  bits key hlive := by
    have hrow : newestRow segs key ≠ none := by
      intro hnone
      have hflushed : finishGet s.engine ((newestRow segs key).bind visible) = .ok (flushed key) := h.flushed key
      rw [hnone] at hflushed
      exact hlive (Except.ok.inj hflushed).symm
    exact BloomFilter.probablyContains_iff_positions.mp (h.sound.covers.contains hrow)

/-- What is read without the lock, a turn of a put leaves as it is, but for bits it sets. -/
theorem Readable.putTurn (h : Readable P options s segs flushed) (key : Key) (value : ByteString) {phase : PutPhase}
    (hfresh : ∀ segment, nextFile s phase = some segment → ∀ seg ∈ segs, seg.fileId.toNat ≠ segment) :
    Readable P options (putTurn P s key value phase).store segs flushed := by
  cases phase with
  | compressing =>
    unfold OmxDb.putTurn
    dsimp only
    split <;> exact h
  | checking =>
    unfold OmxDb.putTurn
    dsimp only
    split
    · exact ⟨h.compressor, h.hasher, h.files, h.bits⟩
    · exact h
  | dumping segment table =>
    refine ⟨h.compressor, h.hasher, ?_, h.bits⟩
    intro seg hseg
    have hname : segmentFile seg.fileId.toNat ≠ segmentFile segment := fun heq =>
      hfresh segment rfl seg hseg (segmentFile_injective heq)
    exact (Disk.segment_writeSegment_ne hname _).trans (h.files seg hseg)
  | adding segment table rest =>
    cases rest with
    | nil => exact h
    | cons j rest =>
      refine ⟨h.compressor, h.hasher, h.files, ?_⟩
      intro key' hlive i hi
      exact BloomFilter.le_setBit s.engine.bloomFilter j i (h.bits key' hlive i hi)
  | updating segment table =>
    unfold OmxDb.putTurn
    dsimp only
    split
    · exact h
    · exact ⟨h.compressor, h.hasher, h.files, h.bits⟩
  | _ => exact ⟨h.compressor, h.hasher, h.files, h.bits⟩

theorem compressRow_reads {e : StorageEngine} {compressor : ICompression} {key : Key} {value : ByteString}
    {row : SSTableRow} (hcompressor : e.compressor = some compressor) (hback : compressor.ReadsBack value)
    (hrow : compressRow e key value = .ok row) : row.key = key ∧ finishGet e (visible row) = .ok (some value) := by
  unfold compressRow at hrow
  rw [hcompressor] at hrow
  dsimp only at hrow
  cases hcompress : compressor.compress value with
  | error fault =>
    rw [hcompress] at hrow
    cases hrow
  | ok compressed =>
    cases hhasher : e.hasher with
    | none =>
      rw [hcompress, hhasher] at hrow
      cases hrow
    | some hasher =>
      rw [hcompress, hhasher] at hrow
      cases hrow
      have hvisible : visible ⟨key, compressed, .Put, hasher.hash compressed⟩
          = some (compressed, hasher.hash compressed) :=
        if_neg (show EntryType.Put ≠ EntryType.Remove by decide)
      refine ⟨rfl, ?_⟩
      rw [hvisible]
      simp only [finishGet, hhasher, hcompressor, ne_eq, not_true_eq_false, if_false, hback compressed hcompress]
      rfl

theorem SessionInv.writing (h : SessionInv P options { store := s, contents := contents, flushed := flushed } segs)
    {key : Key} (hkey : key.id ≠ npos) (value : ByteString) {row : SSTableRow} (hrow : row.key = key)
    (hreads : finishGet s.engine (visible row) = .ok (some value))
    (hfits : snapshotDue (s.write row) = true → (s.write row).engine.segmentId < 2 ^ 32 ∧
      RowsFit (s.write row).engine.memTable.createSortedStringsTable.rows) :
    Writing P options (s.write row) (Function.update contents key (some value)) segs flushed key value .checking := by
  have hwritten := h.write row (some value) hreads
  rw [hrow] at hwritten
  constructor
  · rintro segment ⟨⟩ seg hseg
    exact ne_of_lt (hwritten.numbers seg hseg)
  · cases hdue : snapshotDue (s.write row) with
    | false =>
      refine ⟨s.write row, segs, flushed, Alone.cons ?_, hwritten, fun seg hseg => hseg, Or.inl rfl⟩
      dsimp only [Turn.next, turn, OmxDb.putTurn]
      rw [hdue]
      exact Alone.refl P _
    | true =>
      obtain ⟨hword, hfit⟩ := hfits hdue
      have hfind : (s.write row).engine.memTable.findRow key = some row := by
        show (s.engine.memTable.writeRow row).findRow key = some row
        rw [MemTable.findRow_writeRow, if_pos hrow]
      obtain ⟨s', hrun, hinv⟩ := hwritten.makeSnapshot hword (MemTable.hasOrdinaryKey_of_findRow hfind hkey) hfit
      have halone := Alone.makeSnapshot (P := P) (s.write row) key value hdue
      rw [hrun] at halone
      exact ⟨s', _, _, halone, hinv, fun seg hseg => List.mem_cons_of_mem _ hseg, Or.inr rfl⟩

theorem Alone.next {first last : Turn} (h : Alone P first last) (hne : first ≠ last) :
    Alone P (first.next P) last := by
  obtain ⟨n, hn⟩ := h
  cases n with
  | zero => exact absurd hn hne
  | succ n => exact ⟨n, hn⟩

theorem Alone.idle {first last : Turn} (h : Alone P first last) (hidle : first.running = .idle) : last = first := by
  obtain ⟨n, rfl⟩ := h
  have hnext : first.next P = first := by
    unfold Turn.next
    rw [hidle]
    rfl
  exact Function.iterate_fixed hnext n

theorem putTurn_locked (P : Platform) (s : Store) (key : Key) (value : ByteString) {phase : PutPhase}
    (hlocked : (Running.putting key value phase).holdsLock = true) (hlast : ∀ result, phase ≠ .unlocking result) :
    ∃ s' phase', putTurn P s key value phase
        = { store := s', holds := true, running := .putting key value phase' } ∧
      (Running.putting key value phase').holdsLock = true ∧
      (nextFile s' phase' = none ∨ nextFile s' phase' = nextFile s phase) := by
  cases phase with
  | compressing => cases hlocked
  | locking row => cases hlocked
  | checking =>
    unfold putTurn
    dsimp only
    split
    · exact ⟨_, _, rfl, rfl, Or.inr rfl⟩
    · exact ⟨_, _, rfl, rfl, Or.inl rfl⟩
  | adding segment table rest => cases rest <;> exact ⟨_, _, rfl, rfl, Or.inl rfl⟩
  | updating segment table =>
    unfold putTurn
    dsimp only
    split <;> exact ⟨_, _, rfl, rfl, Or.inl rfl⟩
  | unlocking result => exact absurd rfl (hlast result)
  | _ => exact ⟨_, _, rfl, rfl, Or.inl rfl⟩

section writing

variable {key : Key} {value : ByteString} {phase : PutPhase}

theorem Writing.turn (h : Writing P options s contents segs flushed key value phase)
    (hlocked : (Running.putting key value phase).holdsLock = true) (hlast : ∀ result, phase ≠ .unlocking result) :
    ∃ s' phase', putTurn P s key value phase
        = { store := s', holds := true, running := .putting key value phase' } ∧
      (Running.putting key value phase').holdsLock = true ∧
      Writing P options s' contents segs flushed key value phase' := by
  obtain ⟨s', phase', hturn, hlocked', hfile⟩ := putTurn_locked P s key value hlocked hlast
  refine ⟨s', phase', hturn, hlocked', ?_, ?_⟩
  · intro segment hnext
    rcases hfile with hnone | hsame
    · rw [hnone] at hnext
      cases hnext
    · rw [hsame] at hnext
      exact h.fresh segment hnext
  · obtain ⟨last, segs', flushed', halone, hinv, hsegs, hflushed⟩ := h.ahead
    have hrest := halone.next (by
      rintro heq
      cases heq
      exact hlast _ rfl)
    unfold Turn.next OmxDb.turn at hrest
    dsimp only at hrest
    rw [hturn] at hrest
    exact ⟨last, segs', flushed', hrest, hinv, hsegs, hflushed⟩

/-- Where the lock is released, the store is a map again. -/
theorem Writing.unlocking {result : Except Fault Unit}
    (h : Writing P options s contents segs flushed key value (.unlocking result)) :
    result = .ok () ∧ ∃ segs' flushed',
      SessionInv P options { store := s, contents := contents, flushed := flushed' } segs' ∧
      (∀ seg ∈ segs, seg ∈ segs') ∧ (flushed' = flushed ∨ flushed' = contents) := by
  obtain ⟨last, segs', flushed', halone, hinv, hsegs, hflushed⟩ := h.ahead
  by_cases heq : ({ store := s, holds := true, running := .putting key value (.unlocking result) } : Turn)
      = { store := last, holds := true, running := .putting key value (.unlocking (.ok ())) }
  · cases heq
    exact ⟨rfl, segs', flushed', hinv, hsegs, hflushed⟩
  · have hreturned := (halone.next heq).idle rfl
    cases hreturned

end writing

end put

/-! ### Turns of a get -/

section get

variable {P : Platform} {options : Options} {s : Store} {contents flushed : Key → Option ByteString}
  {segs : List Segment} {key : Key}

theorem SessionInv.findInMemory
    (h : SessionInv P options { store := s, contents := contents, flushed := flushed } segs)
    (hpast : contents key = none → flushed key = none) :
    (∃ found, StorageEngine.findInMemory s key = some found ∧ finishGet s.engine (some found) = .ok (contents key)) ∨
      StorageEngine.findInMemory s key = none ∧ flushed key = contents key := by
  have hcontents : finishGet s.engine (((s.engine.memTable.findRow key).or (newestRow segs key)).bind visible)
    = .ok (contents key) := h.contents key
  have hflushed : finishGet s.engine ((newestRow segs key).bind visible) = .ok (flushed key) := h.flushed key
  unfold StorageEngine.findInMemory
  rw [MemTable.get_eq]
  cases hfind : s.engine.memTable.findRow key with
  | none =>
    rw [hfind, Option.none_or] at hcontents
    exact Or.inr ⟨rfl, Except.ok.inj (hflushed.symm.trans hcontents)⟩
  | some row =>
    rw [hfind, Option.some_or, Option.bind_some] at hcontents
    rw [Option.bind_some]
    cases hvisible : visible row with
    | some found =>
      rw [hvisible] at hcontents
      exact Or.inl ⟨found, rfl, hcontents⟩
    | none =>
      -- a tombstone, of a key that was never put
      rw [hvisible] at hcontents
      have hnone : contents key = none := (Except.ok.inj hcontents).symm
      exact Or.inr ⟨rfl, by rw [hpast hnone, hnone]⟩

theorem SessionInv.indexGet
    (h : SessionInv P options { store := s, contents := contents, flushed := flushed } segs) (key : Key) :
    s.engine.index.get key = none ∧ flushed key = none ∨
      ∃ seg ∈ segs, ∃ row hint, seg.find key = some row ∧ seg.tableIndex.get key = some hint ∧
        s.engine.index.get key = some ⟨seg.fileId, hint.offset, hint.size⟩ ∧
        finishGet s.engine (visible row) = .ok (flushed key) := by
  have hflushed : finishGet s.engine ((newestRow segs key).bind visible) = .ok (flushed key) := h.flushed key
  rcases getLoop_segments (h.sound.at key).index with ⟨hnone, hloop⟩ |
    ⟨seg, hseg, row, hint, hnewest, hfind, hhint, hloop⟩
  · rw [hnone] at hflushed
    exact Or.inl ⟨hloop, (Except.ok.inj hflushed).symm⟩
  · rw [hnewest, Option.bind_some] at hflushed
    exact Or.inr ⟨seg, hseg, row, hint, hfind, hhint, hloop, hflushed⟩

variable {Tid : Type*} {began history : List (Tid × Happening)} {phase : GetPhase}

theorem GetFacts.turn (h : GetFacts P s.engine segs flushed began history key phase) (hbegan : began <+: history)
    (hreadable : Readable P options s segs flushed)
    (hpast : ∃ before, before <+: history ∧ flushed = latestPut before)
    (hfree : (Running.getting key phase).wantsLock = true →
      SessionInv P options { store := s, contents := latestPut history, flushed := flushed } segs) :
    (∃ phase', getTurn P s key phase = { store := s, holds := false, running := .getting key phase' } ∧
      GetFacts P s.engine segs flushed began history key phase') ∨
    ∃ moment, Between began moment history ∧ getTurn P s key phase =
      { store := s, holds := false, running := .idle,
        entries := [.returnGet key (.ok (latestPut moment key))] } := by
  cases phase with
  | searching =>
    have hnone : latestPut history key = none → flushed key = none := by
      obtain ⟨before, hle, rfl⟩ := hpast
      intro hnone
      by_contra hne
      exact latest_ne_none hle hne hnone
    rcases (hfree rfl).findInMemory hnone with ⟨found, hfound, hreads⟩ | ⟨hmissing, heq⟩
    · refine Or.inl ⟨.finishing (some found), ?_, history, Between.now hbegan, hreads⟩
      rw [getTurn, hfound]
    · refine Or.inl ⟨.testing (BloomFilter.positions P kNumHashes key), ?_, fun j hj => hj, history,
        Between.now hbegan, heq⟩
      rw [getTurn, hmissing]
  | testing rest =>
    obtain ⟨hrest, moment, hmoment, heq⟩ := h
    cases rest with
    | nil => exact Or.inl ⟨.indexing, rfl, moment, hmoment, heq⟩
    | cons j rest =>
      by_cases hbit : s.engine.bloomFilter.bits j = 0
      · -- the filter has all bits of what was flushed
        have hnone : flushed key = none := by
          by_contra hlive
          exact hreadable.bits key hlive j (hrest j (List.mem_cons_self ..)) hbit
        refine Or.inl ⟨.finishing none, if_pos hbit, moment, hmoment, ?_⟩
        rw [← heq, hnone]
        rfl
      · have hrest' : ∀ i ∈ rest, i ∈ BloomFilter.positions P kNumHashes key :=
          fun i hi => hrest i (List.mem_cons_of_mem _ hi)
        exact Or.inl ⟨.testing rest, if_neg hbit, hrest', moment, hmoment, heq⟩
  | indexing =>
    obtain ⟨moment, hmoment, heq⟩ := h
    rcases (hfree rfl).indexGet key with ⟨hnone, hmissing⟩ | ⟨seg, hseg, row, hint, hfind, hhint, hget, hreads⟩
    · refine Or.inl ⟨.finishing none, ?_, moment, hmoment, ?_⟩
      · rw [getTurn, hnone]
      · rw [← heq, hmissing]
        rfl
    · refine Or.inl ⟨.reading ⟨seg.fileId, hint.offset, hint.size⟩, ?_, moment, hmoment, seg, hseg, row, hint, hfind,
        hhint, rfl, ?_⟩
      · rw [getTurn, hget]
      · rw [hreads, heq]
  | reading hint =>
    obtain ⟨moment, hmoment, seg, hseg, row, fileHint, hfind, hhint, rfl, hreads⟩ := h
    refine Or.inl ⟨.finishing (visible row), ?_, moment, hmoment, hreads⟩
    rw [getTurn, Segment.readRow_of_find (hreadable.files seg hseg) hfind hhint]
  | finishing found =>
    obtain ⟨moment, hmoment, hreads⟩ := h
    refine Or.inr ⟨moment, hmoment, ?_⟩
    rw [getTurn, hreads]

end get

/-! ### Turns of others -/

section threads

variable {Tid : Type*} {P : Platform} {options : Options} {e e' : StorageEngine} {segs segs' : List Segment}
  {flushed flushed' : Key → Option ByteString} {began history entries : List (Tid × Happening)}

theorem PutFacts.mono {key : Key} {value : ByteString} {phase : PutPhase}
    (h : PutFacts P options e history key value phase) (hcompressor : e'.compressor = e.compressor)
    (hhasher : e'.hasher = e.hasher) : PutFacts P options e' (history ++ entries) key value phase := by
  have hinserted : latestPut history key ≠ none → latestPut (history ++ entries) key ≠ none :=
    latest_ne_none (List.prefix_append history entries)
  cases phase with
  | compressing => exact h
  | locking row => exact ⟨h.1, h.2.1, by rw [finishGet_congr hcompressor hhasher]; exact h.2.2⟩
  | _ => exact hinserted h

theorem GetFacts.mono {key : Key} {phase : GetPhase} (h : GetFacts P e segs flushed began history key phase)
    (hbegan : began <+: history) (hcompressor : e'.compressor = e.compressor) (hhasher : e'.hasher = e.hasher)
    (hsegs : ∀ seg ∈ segs, seg ∈ segs') (hflushed : flushed' = flushed ∨ flushed' = latestPut (history ++ entries)) :
    GetFacts P e' segs' flushed' began (history ++ entries) key phase := by
  -- a snapshot that is complete makes now a moment
  have hmoment : (∃ moment, Between began moment history ∧ flushed key = latestPut moment key) →
      ∃ moment, Between began moment (history ++ entries) ∧ flushed' key = latestPut moment key := by
    rintro ⟨moment, hbetween, heq⟩
    rcases hflushed with rfl | rfl
    · exact ⟨moment, hbetween.append entries, heq⟩
    · exact ⟨history ++ entries, Between.now (hbegan.trans (List.prefix_append history entries)), rfl⟩
  cases phase with
  | searching => trivial
  | testing rest => exact ⟨h.1, hmoment h.2⟩
  | indexing => exact hmoment h
  | reading hint =>
    obtain ⟨moment, hbetween, seg, hseg, row, fileHint, hfind, hhint, heq, hreads⟩ := h
    refine ⟨moment, hbetween.append entries, seg, hsegs seg hseg, row, fileHint, hfind, hhint, heq, ?_⟩
    rw [finishGet_congr hcompressor hhasher]
    exact hreads
  | finishing found =>
    obtain ⟨moment, hbetween, hreads⟩ := h
    refine ⟨moment, hbetween.append entries, ?_⟩
    rw [finishGet_congr hcompressor hhasher]
    exact hreads

end threads

end OmxDb
