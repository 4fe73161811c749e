import OmxDb.History
import OmxDb.Snapshot

/-!
# The filter across sessions

A snapshot adds its keys to the filter and writes the filter to its file before it touches the index, so however
the index step ends, memory and file agree; an open loads the file into an engine whose filter is empty. So the
file, which outlives the sessions, has every key of every segment written and only gains bits (`FilterInv.step`),
and an open engine has what the file has (`bloomFilter_history`).
-/

namespace OmxDb

open StorageEngine

/-- The filter file of the event's snapshot opens. -/
def Event.FilterOpens : Event → Prop
  | .put opened _ _ => opened.bloom = true
  | _ => True

/-! ### What an operation does to the filter -/

theorem bloom_open {P : Platform} {faults : OpenFaults} {options : Options} {disk disk' : Disk}
    {result : Except Fault StorageEngine} (h : «open» P faults options {} disk = (disk', result)) :
    disk'.bloom = disk.bloom ∧ ∀ e, result = .ok e → e.bloomFilter = filterOnDisk disk.bloom := by
  rcases open_cases h with ⟨fault, -, rfl, -, hbloom⟩ | ⟨m, -, -, hbloom, hengine⟩
  · exact ⟨hbloom, fun e he => by cases he⟩
  · exact ⟨hbloom, fun e he => (hengine e he).2⟩

/-- Once its filter file opens, a snapshot leaves the filter with its keys in memory and in the file, whether
the index step then throws or not. -/
theorem bloom_makeSnapshot (P : Platform) {opened : SnapshotStreams} (h : opened.bloom = true) (s : Store) :
    let bloomFilter := s.engine.bloomFilter.addAll P
      (s.engine.memTable.createSortedStringsTable.rows.map SSTableRow.key)
    (makeSnapshot P opened s).1.engine.bloomFilter = bloomFilter ∧
      (makeSnapshot P opened s).1.disk.bloom = some bloomFilter.dump := by
  unfold makeSnapshot snapshotBloom snapshotIndex
  simp only [h, if_true]
  cases opened.index with
  | false => exact ⟨rfl, rfl⟩
  | true =>
    simp only [if_true]
    split
    · exact ⟨rfl, rfl⟩
    · exact ⟨rfl, rfl⟩

theorem bloom_close (s : Store) : (close s).bloom = s.disk.bloom := by
  unfold close
  cases s.engine.memTable.wal with
  | none => rfl
  | some wal => rfl

/-! ### Steps -/

/-- The filter file has every key written to a segment, and an open engine has the filter of the file. -/
structure FilterInv (P : Platform) (w : World) : Prop where
  covers : ∀ row ∈ w.written, (filterOnDisk w.disk.bloom).probablyContains P row.key = true
  loaded : ∀ e, w.engine = some e → e.bloomFilter = filterOnDisk w.disk.bloom

theorem filterInv_empty (P : Platform) : FilterInv P {} where
  covers row hrow := by cases hrow
  loaded e he := by cases he

theorem FilterInv.congr {P : Platform} {w w' : World} (h : FilterInv P w)
    (hbloom : w'.disk.bloom = w.disk.bloom) (hsnapshots : w'.snapshots = w.snapshots)
    (hloaded : ∀ e, w'.engine = some e → e.bloomFilter = filterOnDisk w.disk.bloom) : FilterInv P w' where
  covers row hrow := by
    unfold World.written at hrow
    rw [hsnapshots] at hrow
    rw [hbloom]
    exact h.covers row hrow
  loaded e he := by
    rw [hbloom]
    exact hloaded e he

theorem FilterInv.step {P : Platform} {w : World} {event : Event} (h : FilterInv P w)
    (hopens : event.FilterOpens) :
    FilterInv P (step P w event) ∧
      (filterOnDisk w.disk.bloom).Le (filterOnDisk (OmxDb.step P w event).disk.bloom) := by
  -- what is left to show of a step that keeps the filter file and the segments written
  have hkeep : ∀ w' : World, w'.disk.bloom = w.disk.bloom → w'.snapshots = w.snapshots →
      (∀ e, w'.engine = some e → e.bloomFilter = filterOnDisk w.disk.bloom) →
      FilterInv P w' ∧ (filterOnDisk w.disk.bloom).Le (filterOnDisk w'.disk.bloom) := by
    intro w' hbloom hsnapshots hloaded
    refine ⟨h.congr hbloom hsnapshots hloaded, ?_⟩
    rw [hbloom]
    exact BloomFilter.Le.refl _
  obtain ⟨disk, engine, snapshots⟩ := w
  cases engine with
  | none =>
    cases event with
    | «open» options =>
      unfold OmxDb.step
      dsimp only
      cases hopen : StorageEngine.open P {} options {} disk with
      | mk disk' result =>
        obtain ⟨hbloom, hresult⟩ := bloom_open hopen
        cases result with
        | error fault => exact hkeep _ hbloom rfl fun e he => by cases he
        | ok e =>
          refine hkeep _ hbloom rfl ?_
          intro e' he'
          cases he'
          exact hresult e rfl
    | _ => exact hkeep _ rfl rfl h.loaded
  | some e =>
    cases event with
    | «open» options => exact hkeep _ rfl rfl h.loaded
    | put opened key value =>
      unfold OmxDb.step
      dsimp only
      rcases put_cases P opened ⟨disk, e⟩ key value with ⟨fault, -, hput, hsnapshot⟩ |
        ⟨row, -, -, -, ⟨-, hput, hsnapshot⟩ | ⟨-, hput, hsnapshot⟩⟩
      · rw [hput, hsnapshot]
        exact hkeep _ rfl rfl h.loaded
      · rw [hput, hsnapshot]
        refine hkeep _ rfl rfl ?_
        intro e' he'
        cases he'
        exact h.loaded e rfl
      · -- the snapshot adds the keys of the rows it writes
        have hopened : opened.bloom = true := hopens
        obtain ⟨hfilter, hfile⟩ := bloom_makeSnapshot P hopened (Store.write ⟨disk, e⟩ row)
        have hsame : e.bloomFilter = filterOnDisk disk.bloom := h.loaded e rfl
        have hle : (filterOnDisk disk.bloom).Le
            (filterOnDisk (makeSnapshot P opened (Store.write ⟨disk, e⟩ row)).1.disk.bloom) := by
          rw [hfile, filterOnDisk_dump, ← hsame]
          exact BloomFilter.le_addAll P _ _
        rw [hput]
        refine ⟨⟨?_, ?_⟩, hle⟩
        · intro row' hrow'
          unfold World.written at hrow'
          rw [List.flatMap_append, List.mem_append] at hrow'
          rcases hrow' with hnew | hold
          · rw [hsnapshot] at hnew
            rw [hfile, filterOnDisk_dump]
            apply BloomFilter.probablyContains_addAll
            apply List.mem_map_of_mem
            show row' ∈ (e.memTable.writeRow row).createSortedStringsTable.rows
            cases hsegment : opened.segment with
            | false => simp [hsegment] at hnew
            | true => simpa [hsegment] using hnew
          · exact hle.probablyContains (h.covers row' hold)
        · intro e' he'
          cases he'
          rw [hfile, filterOnDisk_dump]
          exact hfilter
    | remove key =>
      refine hkeep _ rfl rfl ?_
      intro e' he'
      cases he'
      exact h.loaded e rfl
    | close => exact hkeep _ (bloom_close ⟨disk, e⟩) rfl fun e' he' => by cases he'

/-! ### Runs -/

theorem FilterInv.run {P : Platform} {w : World} {events : List Event} (h : FilterInv P w)
    (hopens : ∀ event ∈ events, event.FilterOpens) :
    FilterInv P (Runs.run (OmxDb.step P) w events) ∧
      (filterOnDisk w.disk.bloom).Le (filterOnDisk (Runs.run (OmxDb.step P) w events).disk.bloom) := by
  have hmeets := Runs.Meets.of_forall (OmxDb.step P) w hopens
  apply Runs.run_inv
    (fun w' => FilterInv P w' ∧ (filterOnDisk w.disk.bloom).Le (filterOnDisk w'.disk.bloom)) ?_ hmeets
  · exact ⟨h, BloomFilter.Le.refl _⟩
  · intro w' event hinv hopen
    obtain ⟨hstep, hle⟩ := hinv.1.step hopen
    exact ⟨hstep, hinv.2.trans hle⟩

/-- The filter of the open engine has the key of every row written to a segment. -/
def NoFalseNegatives (P : Platform) (w : World) : Prop :=
  ∀ e, w.engine = some e → ∀ row ∈ w.written, e.bloomFilter.probablyContains P row.key = true

/-- No bit of the filter, of the engine or of the file, is set in the first world and not in the second. -/
def FilterGrows (w w' : World) : Prop :=
  (filterOnDisk w.disk.bloom).Le (filterOnDisk w'.disk.bloom) ∧
    ∀ e e', w.engine = some e → w'.engine = some e' → e.bloomFilter.Le e'.bloomFilter

/-- In every history whose filter files open, no written row is ever missed, and no bit is ever cleared. -/
theorem bloomFilter_history (P : Platform) (events : List Event)
    (hopens : ∀ event ∈ events, event.FilterOpens) :
    NoFalseNegatives P (Runs.run (step P) {} events) ∧
      ∀ before after, events = before ++ after →
        FilterGrows (Runs.run (step P) {} before) (Runs.run (step P) {} events) := by
  have hinv := ((filterInv_empty P).run hopens).1
  constructor
  · intro e he row hrow
    rw [hinv.loaded e he]
    exact hinv.covers row hrow
  · intro before after hsplit
    subst hsplit
    have hbefore := ((filterInv_empty P).run fun event hmem => hopens event (List.mem_append_left _ hmem)).1
    obtain ⟨hafter, hle⟩ := hbefore.run fun event hmem => hopens event (List.mem_append_right _ hmem)
    rw [Runs.run_append] at hinv ⊢
    refine ⟨hle, ?_⟩
    intro e e' he he'
    rw [hbefore.loaded e he, hafter.loaded e' he']
    exact hle

/-- The index file of the first session's snapshot does not open, and the directory is opened again. -/
def indexStepThrows : List Event :=
  [.open plainOptions, .put { index := false } ⟨1⟩ (.single 97), .close, .open plainOptions]

/-- The second session has the key of the segment that no index names. -/
theorem bloomFilter_history_indexStepThrows :
    ∃ e, (Runs.run (step plainPlatform) {} indexStepThrows).engine = some e ∧
      e.bloomFilter.probablyContains plainPlatform ⟨1⟩ = true := by
  obtain ⟨e, row, hengine, hrow, hkey⟩ :
      ∃ e row, (Runs.run (step plainPlatform) {} indexStepThrows).engine = some e ∧
        row ∈ (Runs.run (step plainPlatform) {} indexStepThrows).written ∧ row.key = ⟨1⟩ :=
    ⟨_, ⟨⟨1⟩, .single 97, .Put, (0, 0)⟩, rfl, List.mem_singleton.mpr rfl, rfl⟩
  have hopens : ∀ event ∈ indexStepThrows, event.FilterOpens := by
    intro event hmem
    simp only [indexStepThrows, List.mem_cons, List.not_mem_nil, or_false] at hmem
    rcases hmem with rfl | rfl | rfl | rfl
    · trivial
    · rfl
    · trivial
    · trivial
  refine ⟨e, hengine, ?_⟩
  rw [← hkey]
  exact (bloomFilter_history plainPlatform indexStepThrows hopens).1 e hengine row hrow

/-! ### No other bits -/

/-- The segment file of the event's snapshot opens. -/
def Event.SegmentOpens : Event → Prop
  | .put opened _ _ => opened.segment = true
  | _ => True

theorem bits_foldl_setBit {FilterSize NumHashes : Nat} (js : List (Fin FilterSize))
    (b : BloomFilter FilterSize NumHashes) (j : Fin FilterSize) :
    (js.foldl BloomFilter.setBit b).bits j ≠ 0 ↔ b.bits j ≠ 0 ∨ j ∈ js := by
  induction js generalizing b with
  | nil => simp
  | cons j' js ih =>
    rw [List.foldl_cons, ih]
    show Function.update b.bits j' 1 j ≠ 0 ∨ j ∈ js ↔ _
    by_cases heq : j = j'
    · subst heq
      simp
    · rw [Function.update_of_ne heq, List.mem_cons, or_iff_right heq]

/-- Every bit of the filter file is one of a written row. -/
def FilterBitsWritten (P : Platform) (w : World) : Prop :=
  ∀ j, (filterOnDisk w.disk.bloom).bits j ≠ 0 → ∃ row ∈ w.written, j ∈ BloomFilter.positions P kNumHashes row.key

theorem FilterBitsWritten.mono {P : Platform} {w w' : World} (h : FilterBitsWritten P w)
    (hbloom : w'.disk.bloom = w.disk.bloom) (hwritten : ∀ row ∈ w.written, row ∈ w'.written) :
    FilterBitsWritten P w' := by
  intro j hj
  rw [hbloom] at hj
  obtain ⟨row, hrow, hmem⟩ := h j hj
  exact ⟨row, hwritten row hrow, hmem⟩

theorem written_append (disk : Disk) (engine : Option StorageEngine) (new old : List (Nat × SSTable)) :
    World.written ⟨disk, engine, new ++ old⟩
      = (new.flatMap fun snapshot => snapshot.2.rows) ++ World.written ⟨disk, engine, old⟩ :=
  List.flatMap_append

theorem FilterBitsWritten.step {P : Platform} {w : World} {event : Event} (h : FilterBitsWritten P w)
    (hinv : FilterInv P w) (hopens : event.FilterOpens) (hsegment : event.SegmentOpens) :
    FilterBitsWritten P (OmxDb.step P w event) := by
  obtain ⟨disk, engine, snapshots⟩ := w
  cases engine with
  | none =>
    cases event with
    | «open» options =>
      unfold OmxDb.step
      dsimp only
      cases hopen : StorageEngine.open P {} options {} disk with
      | mk disk' result =>
        obtain ⟨hbloom, -⟩ := bloom_open hopen
        cases result with
        | error fault => exact h.mono hbloom fun row hrow => hrow
        | ok e => exact h.mono hbloom fun row hrow => hrow
    | _ => exact h
  | some e =>
    cases event with
    | «open» options => exact h
    | remove key => exact h.mono rfl fun row hrow => hrow
    | close => exact h.mono (bloom_close ⟨disk, e⟩) fun row hrow => hrow
    | put opened key value =>
      unfold OmxDb.step
      dsimp only
      rcases put_cases P opened ⟨disk, e⟩ key value with ⟨fault, -, hput, hsnapshot⟩ |
        ⟨row, -, -, -, ⟨-, hput, hsnapshot⟩ | ⟨-, hput, hsnapshot⟩⟩
      · rw [hput, hsnapshot]
        exact h.mono rfl fun row' hrow' => hrow'
      · rw [hput, hsnapshot]
        exact h.mono rfl fun row' hrow' => hrow'
      · -- the bits that were there, and those of the keys that are written now
        have hbloom : opened.bloom = true := hopens
        have hopened : opened.segment = true := hsegment
        obtain ⟨-, hfile⟩ := bloom_makeSnapshot P hbloom (Store.write ⟨disk, e⟩ row)
        have hloaded : e.bloomFilter = filterOnDisk disk.bloom := hinv.loaded e rfl
        rw [hput, hsnapshot, if_pos hopened, Option.toList_some]
        intro j hj
        rw [written_append]
        dsimp only at hj
        rw [hfile, filterOnDisk_dump, BloomFilter.addAll_eq_foldl, bits_foldl_setBit] at hj
        rcases hj with hold | hnew
        · obtain ⟨row', hrow', hmem⟩ := h j (by rw [← hloaded]; exact hold)
          exact ⟨row', List.mem_append_right _ hrow', hmem⟩
        · obtain ⟨key', hkey', hmem⟩ := List.mem_flatMap.mp hnew
          obtain ⟨row', hrow', rfl⟩ := List.mem_map.mp hkey'
          refine ⟨row', List.mem_append_left _ ?_, hmem⟩
          rw [List.flatMap_singleton]
          exact hrow'

/-- In every history whose filter and segment files open, exactly the positions of the written keys are set, in the
file and in the filter of an open engine; so a key is probably contained if and only if every one of its positions is
one of a written key. -/
theorem filter_exact (P : Platform) (events : List Event) (hopens : ∀ event ∈ events, event.FilterOpens)
    (hsegments : ∀ event ∈ events, event.SegmentOpens) :
    let w := Runs.run (step P) {} events
    (∀ j, (filterOnDisk w.disk.bloom).bits j ≠ 0 ↔
        ∃ row ∈ w.written, j ∈ BloomFilter.positions P kNumHashes row.key) ∧
      ∀ e, w.engine = some e → ∀ key, e.bloomFilter.probablyContains P key = true ↔
        ∀ j : Fin kFilterSize, j ∈ BloomFilter.positions P kNumHashes key →
          ∃ row ∈ w.written, j ∈ BloomFilter.positions P kNumHashes row.key := by
  intro w
  obtain ⟨hinv, honly⟩ : FilterInv P w ∧ FilterBitsWritten P w := by
    refine Runs.run_inv (fun w => FilterInv P w ∧ FilterBitsWritten P w) ?_
      ((Runs.Meets.of_forall (step P) {} hopens).and (Runs.Meets.of_forall (step P) {} hsegments))
      ⟨filterInv_empty P, fun j hj => absurd rfl hj⟩
    rintro w event ⟨hinv, honly⟩ ⟨hopen, hsegment⟩
    exact ⟨(hinv.step hopen).1, honly.step hinv hopen hsegment⟩
  have hbits : ∀ j, (filterOnDisk w.disk.bloom).bits j ≠ 0 ↔
      ∃ row ∈ w.written, j ∈ BloomFilter.positions P kNumHashes row.key := by
    intro j
    refine ⟨honly j, ?_⟩
    rintro ⟨row, hrow, hmem⟩
    exact BloomFilter.probablyContains_iff_positions.mp (hinv.covers row hrow) j hmem
  refine ⟨hbits, ?_⟩
  intro e he key
  rw [hinv.loaded e he, BloomFilter.probablyContains_iff_positions]
  exact forall₂_congr fun j _ => hbits j

theorem filter_exact_indexStepThrows :
    ∃ e, (Runs.run (step plainPlatform) {} indexStepThrows).engine = some e ∧
      ∀ key, e.bloomFilter.probablyContains plainPlatform key = true ↔
        ∀ j : Fin kFilterSize, j ∈ BloomFilter.positions plainPlatform kNumHashes key →
          ∃ row ∈ (Runs.run (step plainPlatform) {} indexStepThrows).written,
            j ∈ BloomFilter.positions plainPlatform kNumHashes row.key := by
  have hopens : ∀ event ∈ indexStepThrows, event.FilterOpens ∧ event.SegmentOpens := by
    intro event hmem
    simp only [indexStepThrows, List.mem_cons, List.not_mem_nil, or_false] at hmem
    rcases hmem with rfl | rfl | rfl | rfl
    · exact ⟨trivial, trivial⟩
    · exact ⟨rfl, rfl⟩
    · exact ⟨trivial, trivial⟩
    · exact ⟨trivial, trivial⟩
  obtain ⟨e, hengine⟩ : ∃ e, (Runs.run (step plainPlatform) {} indexStepThrows).engine = some e := ⟨_, rfl⟩
  exact ⟨e, hengine, (filter_exact plainPlatform indexStepThrows (fun event hmem => (hopens event hmem).1)
    fun event hmem => (hopens event hmem).2).2 e hengine⟩

end OmxDb
