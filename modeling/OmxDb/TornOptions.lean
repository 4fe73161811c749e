import OmxDb.Configuration

/-!
# Options files that were cut

A process that dies while the first open writes `options.bin` leaves a file with the first bytes, or none, and no
later open writes it again. `loadOptions` then reads over the options that `open` was given: what the file has of a
field wins, byte for byte, and the rest is what this open was given (`options_of_cut_file`). An open that is given the
options of the first one uses them; any other may use options that nobody gave, and no two of them the same.
-/

namespace OmxDb

open LittleEndian StorageEngine IStream

/-! ### Reading over options -/

theorem readInto_unread {s : IStream} {bytes : List UInt8} (h : s.Unread bytes) {dst : List UInt8} {n : Nat}
    (hdst : dst.length = n) :
    ∃ s', readInto s dst n = .ok (overwritten bytes dst, s') ∧ s'.Unread (bytes.drop n) := by
  obtain ⟨hread, hleft⟩ := h.read n
  refine ⟨(s.read n).2, ?_, hleft⟩
  have hdrop : dst.drop (bytes.take n).length = dst.drop bytes.length := by
    rw [List.length_take]
    rcases Nat.le_total bytes.length n with hle | hle
    · rw [Nat.min_eq_right hle]
    · rw [Nat.min_eq_left hle, List.drop_eq_nil_of_le (Nat.le_of_eq hdst), List.drop_eq_nil_of_le (by omega)]
  have hfits : (bytes.take n).length ≤ dst.length := by
    rw [hdst]
    exact List.length_take_le n bytes
  unfold readInto
  dsimp only
  rw [hread, if_pos hfits, hdrop, overwritten, hdst]

theorem encodeLE_ofNat_uint64 {bytes : List UInt8} (h : bytes.length = 8) :
    encodeLE 8 (UInt64.ofNat (decodeLE bytes)).toNat = bytes := by
  have hlt : decodeLE bytes < 2 ^ 64 := by
    have := decodeLE_lt bytes
    rwa [h] at this
  rw [UInt64.toNat_ofNat_of_lt' hlt, encodeLE_decodeLE_of_length h]

theorem encodeLE_ofNat_uint32 {bytes : List UInt8} (h : bytes.length = 4) :
    encodeLE 4 (UInt32.ofNat (decodeLE bytes)).toNat = bytes := by
  have hlt : decodeLE bytes < 2 ^ 32 := by
    have := decodeLE_lt bytes
    rwa [h] at this
  rw [UInt32.toNat_ofNat_of_lt' hlt, encodeLE_decodeLE_of_length h]

theorem singleton_headD {bytes : List UInt8} (h : bytes.length = 1) : [bytes.headD 0] = bytes := by
  obtain ⟨byte, rfl⟩ := List.length_eq_one_iff.mp h
  rfl

theorem loadOptions_ofBytes (options : Options) (bytes : List UInt8) :
    ∃ opts, loadOptions options (IStream.ofBytes bytes) = .ok opts ∧
      saveOptions opts = overwritten bytes (saveOptions options) := by
  unfold loadOptions
  obtain ⟨s₁, hmem, h₁⟩ := readInto_unread (unread_ofBytes bytes) (length_encodeLE 8 options.maxMemTableSize.toNat)
  obtain ⟨s₂, hwal, h₂⟩ := readInto_unread h₁ (length_encodeLE 4 options.maxWalBufferSize.toNat)
  obtain ⟨s₃, hcompression, h₃⟩ := readInto_unread h₂ (List.length_singleton (a := options.compressionType.code))
  obtain ⟨s₄, hhash, -⟩ := readInto_unread h₃ (List.length_singleton (a := options.hashType.code))
  simp only [hmem, hwal, hcompression, hhash, bind, Except.bind, pure, Except.pure]
  refine ⟨_, rfl, ?_⟩
  unfold saveOptions
  dsimp only
  rw [encodeLE_ofNat_uint64 (by simp), encodeLE_ofNat_uint32 (by simp), singleton_headD (by simp),
    singleton_headD (by simp), overwritten_append, overwritten_append, overwritten_append]
  simp only [length_encodeLE, List.length_singleton]

theorem saveOptions_injective {options saved : Options} (h : saveOptions options = saveOptions saved) :
    options = saved := by
  have hloaded := loadOptions_saveOptions options options
  rw [h, loadOptions_saveOptions] at hloaded
  exact (Except.ok.inj hloaded).symm

/-! ### Histories -/

/-- An open of a closed directory is given options; any other event leaves those of the open before. -/
def givenBy (w : World) (event : Event) (given : Option Options) : Option Options :=
  match w.engine, event with
  | none, .open options => some options
  | _, _ => given

/-- What the last open that met the directory closed was given: the open of the session, where there is one. -/
def lastGiven (P : Platform) (w : World) (given : Option Options) : List Event → Option Options
  | [] => given
  | event :: events => lastGiven P (step P w event) (givenBy w event given) events

/-- The file has the bytes, and an open engine is set up with what its own open was given, under these bytes. -/
def FileInv (P : Platform) (bytes : List UInt8) (given : Option Options) (w : World) : Prop :=
  w.disk.options = some bytes ∧ ∀ e, w.engine = some e → ∃ options, given = some options ∧ SetUp P e e.opts ∧
    saveOptions e.opts = overwritten bytes (saveOptions options)

section steps

variable {P : Platform} {bytes : List UInt8} {given : Option Options}

theorem FileInv.keeps {disk : Disk} {e : StorageEngine} {s : Store} {snapshots snapshots' : List (Nat × SSTable)}
    (h : FileInv P bytes given ⟨disk, some e, snapshots⟩) (hkeeps : KeepsOptions ⟨disk, e⟩ s) :
    FileInv P bytes given ⟨s.disk, some s.engine, snapshots'⟩ := by
  obtain ⟨hfile, hengine⟩ := h
  obtain ⟨options, hgiven, hsetUp, hsaved⟩ := hengine e rfl
  have hopts : s.engine.opts = e.opts := hkeeps.opts
  refine ⟨hkeeps.file.trans hfile, ?_⟩
  rintro e' ⟨⟩
  refine ⟨options, hgiven, ?_, ?_⟩
  · rw [hopts]
    exact hkeeps.setUp hsetUp
  · rw [hopts]
    exact hsaved

theorem FileInv.open {disk : Disk} {snapshots : List (Nat × SSTable)}
    (h : FileInv P bytes given ⟨disk, none, snapshots⟩) (options : Options) :
    FileInv P bytes (some options) (OmxDb.step P ⟨disk, none, snapshots⟩ (.open options)) := by
  have hfile : disk.options = some bytes := h.1
  obtain ⟨opts, hload, hsaved⟩ := loadOptions_ofBytes options bytes
  have hopts : openOptions options disk = ({ disk with options := some bytes }, .ok opts) := by
    unfold openOptions
    rw [hfile]
    dsimp only
    rw [hload, ← hfile]
  unfold OmxDb.step
  dsimp only
  cases hopen : StorageEngine.open P {} options {} disk with
  | mk disk' result =>
    obtain ⟨hkept, hsetUp⟩ := setUp_of_openOptions hopts hopen
    cases result with
    | error fault => exact ⟨hkept, fun e he => by cases he⟩
    | ok e =>
      refine ⟨hkept, ?_⟩
      rintro e' ⟨⟩
      have hengine := hsetUp e rfl
      refine ⟨options, rfl, ?_, ?_⟩
      · rw [hengine.opts]
        exact hengine
      · rw [hengine.opts]
        exact hsaved

theorem FileInv.step {w : World} (h : FileInv P bytes given w) (event : Event) :
    FileInv P bytes (givenBy w event given) (OmxDb.step P w event) := by
  obtain ⟨disk, engine, snapshots⟩ := w
  cases engine with
  | none =>
    cases event with
    | «open» options => exact h.open options
    | _ => exact h
  | some e =>
    cases event with
    | «open» options => exact h
    | put opened key value => exact h.keeps (keepsOptions_put P opened ⟨disk, e⟩ key value)
    | remove key => exact h.keeps (s := StorageEngine.remove ⟨disk, e⟩ key) ⟨rfl, rfl, rfl, rfl, rfl⟩
    | close =>
      refine ⟨?_, fun e' he' => by cases he'⟩
      rw [← h.1]
      show (StorageEngine.close ⟨disk, e⟩).options = disk.options
      unfold StorageEngine.close
      cases e.memTable.wal <;> rfl

theorem FileInv.run {w : World} (h : FileInv P bytes given w) (events : List Event) :
    FileInv P bytes (lastGiven P w given events) (Runs.run (OmxDb.step P) w events) := by
  induction events generalizing w given with
  | nil => exact h
  | cons event events ih => exact ih (h.step event)

end steps

/-- Whatever bytes `options.bin` has when a history begins, it keeps them, and the options in force in a session are
those its own open was given with these bytes read over them. So behind a first open that was killed after any part of
its options was written, an open that is given the same options uses them. -/
theorem options_of_cut_file (P : Platform) (disk : Disk) {bytes : List UInt8} (hfile : disk.options = some bytes)
    (events : List Event) :
    let w := Runs.run (step P) { disk := disk } events
    w.disk.options = some bytes ∧
      (∀ e, w.engine = some e → ∃ given, lastGiven P { disk := disk } none events = some given ∧ SetUp P e e.opts ∧
        saveOptions e.opts = overwritten bytes (saveOptions given)) ∧
      ∀ saved, bytes <+: saveOptions saved → lastGiven P { disk := disk } none events = some saved →
        ∀ e, w.engine = some e → SetUp P e saved := by
  intro w
  have hinv : FileInv P bytes (lastGiven P { disk := disk } none events) w :=
    FileInv.run ⟨hfile, fun e he => by cases he⟩ events
  refine ⟨hinv.1, hinv.2, ?_⟩
  intro saved hcut hsame e he
  obtain ⟨given, hgiven, hsetUp, hsaved⟩ := hinv.2 e he
  rw [hsame, Option.some.injEq] at hgiven
  rw [← hgiven, overwritten_of_isPrefix hcut] at hsaved
  rwa [saveOptions_injective hsaved] at hsetUp

/-- The file has the two sizes of the first open, and the second session is given other options than the first: it
uses these sizes with its own compressor and hasher. -/
theorem options_of_cut_file_sizes :
    let events : List Event := [.open plainOptions, .close, .open ⟨7, 7, .Snappy, .CityHash128⟩]
    ∃ e, (Runs.run (step plainPlatform) { disk := { options := some ((saveOptions plainOptions).take 12) } }
        events).engine = some e ∧
      e.opts = { plainOptions with compressionType := .Snappy, hashType := .CityHash128 } := by
  intro events
  obtain ⟨e, hengine⟩ : ∃ e, (Runs.run (step plainPlatform)
      { disk := { options := some ((saveOptions plainOptions).take 12) } } events).engine = some e := ⟨_, rfl⟩
  obtain ⟨-, hsessions, -⟩ := options_of_cut_file plainPlatform
    { options := some ((saveOptions plainOptions).take 12) } rfl events
  obtain ⟨given, hgiven, -, hsaved⟩ := hsessions e hengine
  cases hgiven
  exact ⟨e, hengine, saveOptions_injective (hsaved.trans (by decide))⟩

end OmxDb
