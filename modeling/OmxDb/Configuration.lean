import OmxDb.History

/-!
# Options of a directory

The first open of a directory writes its options to a file, and every later one reads them from there, whatever it is
given. So all sessions of a directory use one compressor, one hasher and one limit, those of the first open
(`options_of_first_open`), and what one of them stored the others can read.
-/

namespace OmxDb

open StorageEngine

/-! ### What an engine is set up with -/

/-- The engine is set up with the options. -/
structure SetUp (P : Platform) (e : StorageEngine) (options : Options) : Prop where
  opts : e.opts = options
  compressor : e.compressor = some (createCompressor P options.compressionType)
  hasher : e.hasher = createHasher P options.hashType
  limit : e.memTableLimit = options.maxMemTableSize.toNat

/-- Neither the file of the options nor the set-up changes. -/
structure KeepsOptions (s s' : Store) : Prop where
  file : s'.disk.options = s.disk.options
  opts : s'.engine.opts = s.engine.opts
  compressor : s'.engine.compressor = s.engine.compressor
  hasher : s'.engine.hasher = s.engine.hasher
  limit : s'.engine.memTableLimit = s.engine.memTableLimit

theorem KeepsOptions.setUp {P : Platform} {s s' : Store} {options : Options} (h : KeepsOptions s s')
    (hsetUp : SetUp P s.engine options) : SetUp P s'.engine options where
  opts := h.opts.trans hsetUp.opts
  compressor := h.compressor.trans hsetUp.compressor
  hasher := h.hasher.trans hsetUp.hasher
  limit := h.limit.trans hsetUp.limit

theorem keepsOptions_makeSnapshot (P : Platform) (opened : SnapshotStreams) (s : Store) :
    KeepsOptions s (makeSnapshot P opened s).1 := by
  unfold makeSnapshot snapshotSegment snapshotBloom snapshotIndex
  dsimp only
  cases opened.segment <;> cases opened.bloom <;> cases opened.index <;>
    simp only [if_true, Bool.false_eq_true, if_false]
  all_goals first
    | exact ⟨rfl, rfl, rfl, rfl, rfl⟩
    | (split <;> exact ⟨rfl, rfl, rfl, rfl, rfl⟩)

theorem keepsOptions_put (P : Platform) (opened : SnapshotStreams) (s : Store) (key : Key) (value : ByteString) :
    KeepsOptions s (put P opened s key value).1 := by
  rcases put_cases P opened s key value with ⟨fault, -, hput, -⟩ | ⟨row, -, -, -, ⟨-, hput, -⟩ | ⟨-, hput, -⟩⟩
  · rw [hput]
    exact ⟨rfl, rfl, rfl, rfl, rfl⟩
  · rw [hput]
    exact ⟨rfl, rfl, rfl, rfl, rfl⟩
  · rw [hput]
    obtain ⟨hfile, hopts, hcompressor, hhasher, hlimit⟩ := keepsOptions_makeSnapshot P opened (s.write row)
    exact ⟨hfile, hopts, hcompressor, hhasher, hlimit⟩

theorem setUp_of_openOptions {P : Platform} {options opts : Options} {disk disk' : Disk} {file : List UInt8}
    {result : Except Fault StorageEngine}
    (hopts : openOptions options disk = ({ disk with options := some file }, .ok opts))
    (h : «open» P {} options {} disk = (disk', result)) :
    disk'.options = some file ∧ ∀ e, result = .ok e → SetUp P e opts := by
  obtain ⟨hsaved, -⟩ := open_of_openOptions hopts h
  refine ⟨hsaved, ?_⟩
  rintro e rfl
  unfold «open» at h
  rw [hopts] at h
  dsimp only at h
  split at h
  · cases h
  · obtain ⟨-, hengine⟩ := openTables_cases {} _ _
    obtain ⟨index, rfl⟩ := hengine e (congrArg Prod.snd h)
    exact ⟨rfl, rfl, rfl, rfl⟩

theorem setUp_open {P : Platform} {options opts : Options} {disk disk' : Disk} {result : Except Fault StorageEngine}
    (hfile : disk.options = none ∧ opts = options ∨ disk.options = some (saveOptions opts))
    (h : «open» P {} options {} disk = (disk', result)) :
    disk'.options = some (saveOptions opts) ∧ ∀ e, result = .ok e → SetUp P e opts :=
  setUp_of_openOptions (openOptions_saved hfile) h

/-! ### Histories -/

/-- The options an open is given. -/
def Event.options : Event → Option Options
  | .open options => some options
  | _ => none

/-- The options of the first open. -/
def firstOptions (events : List Event) : Option Options := events.findSome? Event.options

theorem firstOptions_append (events : List Event) (event : Event) :
    firstOptions (events ++ [event]) = (firstOptions events).or event.options := by
  unfold firstOptions
  rw [List.findSome?_append, List.findSome?_singleton]

/-- The directory has the file of the first open, and an open engine is set up with its options. -/
def OptionsInv (P : Platform) (first : Option Options) (w : World) : Prop :=
  w.disk.options = first.map saveOptions ∧ ∀ e, w.engine = some e → ∃ options, first = some options ∧ SetUp P e options

theorem OptionsInv.keeps {P : Platform} {first : Option Options} {disk : Disk} {e : StorageEngine} {s : Store}
    {snapshots snapshots' : List (Nat × SSTable)} (h : OptionsInv P first ⟨disk, some e, snapshots⟩)
    (hkeeps : KeepsOptions ⟨disk, e⟩ s) : OptionsInv P first ⟨s.disk, some s.engine, snapshots'⟩ := by
  obtain ⟨hfile, hengine⟩ := h
  obtain ⟨options, hfirst, hsetUp⟩ := hengine e rfl
  refine ⟨hkeeps.file.trans hfile, ?_⟩
  rintro e' ⟨⟩
  exact ⟨options, hfirst, hkeeps.setUp hsetUp⟩

theorem OptionsInv.open {P : Platform} {first : Option Options} {disk disk' : Disk} {options : Options}
    {snapshots : List (Nat × SSTable)} {result : Except Fault StorageEngine}
    (h : OptionsInv P first ⟨disk, none, snapshots⟩)
    (hopen : «open» P {} options {} disk = (disk', result)) :
    disk'.options = (first.or (some options)).map saveOptions ∧
      ∀ e, result = .ok e → ∃ options', first.or (some options) = some options' ∧ SetUp P e options' := by
  have hfile : disk.options = first.map saveOptions := h.1
  cases first with
  | none =>
    obtain ⟨hsaved, hsetUp⟩ := setUp_open (Or.inl ⟨hfile, rfl⟩) hopen
    exact ⟨hsaved, fun e he => ⟨options, rfl, hsetUp e he⟩⟩
  | some opts =>
    obtain ⟨hsaved, hsetUp⟩ := setUp_open (Or.inr hfile) hopen
    exact ⟨hsaved, fun e he => ⟨opts, rfl, hsetUp e he⟩⟩

theorem OptionsInv.step {P : Platform} {first : Option Options} {w : World} (h : OptionsInv P first w)
    (event : Event) : OptionsInv P (first.or event.options) (OmxDb.step P w event) := by
  have hother : event.options = none → OptionsInv P first (OmxDb.step P w event) →
      OptionsInv P (first.or event.options) (OmxDb.step P w event) := by
    intro hnone hstep
    rw [hnone, Option.or_none]
    exact hstep
  obtain ⟨disk, engine, snapshots⟩ := w
  cases engine with
  | none =>
    cases event with
    | «open» options =>
      unfold OmxDb.step
      dsimp only
      cases hopen : StorageEngine.open P {} options {} disk with
      | mk disk' result =>
        obtain ⟨hsaved, hsetUp⟩ := h.open hopen
        cases result with
        | error fault => exact ⟨hsaved, fun e he => by cases he⟩
        | ok e =>
          refine ⟨hsaved, ?_⟩
          rintro e' ⟨⟩
          exact hsetUp e rfl
    | _ => exact hother rfl h
  | some e =>
    cases event with
    | «open» options =>
      obtain ⟨options', rfl, -⟩ := h.2 e rfl
      exact h
    | put opened key value => exact hother rfl (h.keeps (keepsOptions_put P opened ⟨disk, e⟩ key value))
    | remove key =>
      exact hother rfl (h.keeps (s := StorageEngine.remove ⟨disk, e⟩ key) ⟨rfl, rfl, rfl, rfl, rfl⟩)
    | close =>
      refine hother rfl ⟨?_, fun e' he' => by cases he'⟩
      rw [← h.1]
      show (StorageEngine.close ⟨disk, e⟩).options = disk.options
      unfold StorageEngine.close
      cases e.memTable.wal <;> rfl

/-- In every session of a directory the options in force are those of the first open, whatever later opens are given,
and the file keeps them. -/
theorem options_of_first_open (P : Platform) (events : List Event) :
    let w := Runs.run (step P) {} events
    w.disk.options = (firstOptions events).map saveOptions ∧
      ∀ e, w.engine = some e → ∃ options, firstOptions events = some options ∧ SetUp P e options := by
  show OptionsInv P (firstOptions events) (Runs.run (step P) {} events)
  induction events using List.reverseRecOn with
  | nil => exact ⟨rfl, fun e he => by cases he⟩
  | append_singleton events event ih =>
    rw [Runs.run_append, firstOptions_append]
    exact ih.step event

/-- The second session is given other options and does not use them. -/
theorem options_of_first_open_again :
    ∃ e, (Runs.run (step plainPlatform) {}
        [.open plainOptions, .close, .open { plainOptions with maxMemTableSize := 1024 }]).engine = some e ∧
      e.opts = plainOptions := by
  obtain ⟨e, hengine⟩ : ∃ e, (Runs.run (step plainPlatform) {}
      [.open plainOptions, .close, .open { plainOptions with maxMemTableSize := 1024 }]).engine = some e := ⟨_, rfl⟩
  obtain ⟨options, hfirst, hsetUp⟩ := (options_of_first_open plainPlatform
    [.open plainOptions, .close, .open { plainOptions with maxMemTableSize := 1024 }]).2 e hengine
  cases hfirst
  exact ⟨e, hengine, hsetUp.opts⟩

end OmxDb
