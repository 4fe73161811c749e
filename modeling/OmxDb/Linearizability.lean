import OmxDb.Turns

/-!
# Gets between puts and snapshots

Every get answers what the latest put of its key was at some moment of the get, whatever puts and snapshots run at the
same time. The invariant of the system says what each thread knows of its call; a thread's own turn takes its
knowledge on, and what the others know stays true meanwhile.
-/

namespace OmxDb

open StorageEngine Histories

/-! ### Statements -/

section statements

variable {Tid : Type*}

/-- The get that returns behind `before` answers the latest put of some moment since it began, or nothing where no
put of the key had returned when it began. -/
def GetAnswered (before : List (Tid × Happening)) (t : Tid) (key : Key)
    (result : Except Fault (Option ByteString)) : Prop :=
  ∃ began during, before = began ++ (t, .invokeGet key) :: during ∧ (∀ entry ∈ during, entry.1 ≠ t) ∧
    ((∃ value moment, result = .ok (some value) ∧
        Between (began ++ [(t, .invokeGet key)]) moment before ∧ latestPut moment key = some value) ∨
      result = .ok none ∧ ∀ t', (t', .returnPut key (.ok ())) ∉ began)

/-- Every get of the history that has returned. -/
def GetsLinearize (history : List (Tid × Happening)) : Prop :=
  ∀ before after t key result, history = before ++ (t, .returnGet key result) :: after →
    GetAnswered before t key result

/-- After turns of whoever holds the lock, turns of the thread lead every get to its return. -/
def GetsReturn [DecidableEq Tid] (P : Platform) (sys : System Tid) : Prop :=
  ∀ t key phase, sys.running t = .getting key phase → ∃ writer n m result,
    let sys' := Runs.run (System.step P) sys (List.replicate n (.advance writer) ++ List.replicate m (.advance t))
    sys'.history.getLast? = some (t, .returnGet key result)

/-- Puts are of keys below `2 ^ 64 - 1`, and of values the compressor gives back if it takes them. -/
def Action.Ordinary (P : Platform) (options : Options) : Action Tid → Prop
  | .put _ key value => key.id ≠ npos ∧ (createCompressor P options.compressionType).ReadsBack value
  | _ => True

/-- A snapshot that a put will take when it inserts its row has a 32-bit number and rows its hints can address. -/
def SnapshotsFit [DecidableEq Tid] (sys : System Tid) (action : Action Tid) : Prop :=
  ∀ t key value row, action = .advance t → sys.running t = .putting key value (.locking row) → sys.writer = none →
    snapshotDue (sys.store.write row) = true → (sys.store.write row).engine.segmentId < 2 ^ 32 ∧
      RowsFit (sys.store.write row).engine.memTable.createSortedStringsTable.rows

/-- A row is only inserted while the next segment has a 32-bit number and fewer than `2 ^ 32` bytes. -/
def insertsSmall (sys : System Tid) : Action Tid → Bool
  | .advance t =>
    match sys.running t with
    | .putting _ _ (.locking row) =>
      decide ((sys.store.write row).engine.segmentId < 2 ^ 32) &&
        decide ((serializeAll (sys.store.write row).engine.memTable.createSortedStringsTable.rows).length < 2 ^ 32)
    | _ => true
  | _ => true

theorem snapshotsFit_of_small [DecidableEq Tid] {sys : System Tid} {action : Action Tid}
    (h : insertsSmall sys action = true) : SnapshotsFit sys action := by
  rintro t key value row rfl hrun - -
  simp only [insertsSmall, hrun, Bool.and_eq_true, decide_eq_true_eq] at h
  exact ⟨h.1, rowsFit_of_length h.2⟩

end statements

/-! ### What the threads know -/

/-- What a thread knows of its call. -/
def CallFacts {Tid : Type*} (P : Platform) (options : Options) (e : StorageEngine) (segs : List Segment)
    (flushed : Key → Option ByteString) (history : List (Tid × Happening)) (t : Tid) : Running → Prop
  | .idle => True
  | .putting key value phase => PutFacts P options e history key value phase
  | .getting key phase => ∃ began, QuietSince Prod.fst t (began ++ [(t, .invokeGet key)]) history ∧
      GetFacts P e segs flushed (began ++ [(t, .invokeGet key)]) history key phase

/-- What an entry says of the history before it. -/
def EntryFacts {Tid : Type*} (before : List (Tid × Happening)) (entry : Tid × Happening) : Prop :=
  match entry.2 with
  | .returnPut key (.ok ()) => latestPut before key ≠ none
  | .returnGet key result => ∃ began, QuietSince Prod.fst entry.1 (began ++ [(entry.1, .invokeGet key)]) before ∧
      ∃ moment, Between (began ++ [(entry.1, .invokeGet key)]) moment before ∧ result = .ok (latestPut moment key)
  | _ => True

/-- `segs` and `flushed` are the segments and the map of the last snapshot that is complete. -/
structure SystemInv {Tid : Type*} (P : Platform) (options : Options) (sys : System Tid) (segs : List Segment)
    (flushed : Key → Option ByteString) : Prop where
  readable : Readable P options sys.store segs flushed
  past : ∃ before, before <+: sys.history ∧ flushed = latestPut before
  free : sys.writer = none →
    SessionInv P options { store := sys.store, contents := latestPut sys.history, flushed := flushed } segs
  writing : ∀ t key value phase, sys.writer = some t → sys.running t = .putting key value phase →
    Writing P options sys.store (latestPut sys.history) segs flushed key value phase
  holds : ∀ t, (sys.running t).holdsLock = true ↔ sys.writer = some t
  calls : ∀ t, CallFacts P options sys.store.engine segs flushed sys.history t (sys.running t)
  entries : ∀ before entry after, sys.history = before ++ entry :: after → EntryFacts before entry

section threads

variable {Tid : Type*} {P : Platform} {options : Options} {e e' : StorageEngine} {segs segs' : List Segment}
  {flushed flushed' : Key → Option ByteString} {history entries : List (Tid × Happening)}

theorem CallFacts.mono {t : Tid} {running : Running} (h : CallFacts P options e segs flushed history t running)
    (hcompressor : e'.compressor = e.compressor) (hhasher : e'.hasher = e.hasher)
    (hsegs : ∀ seg ∈ segs, seg ∈ segs') (hflushed : flushed' = flushed ∨ flushed' = latestPut (history ++ entries))
    (hothers : ∀ entry ∈ entries, entry.1 ≠ t) :
    CallFacts P options e' segs' flushed' (history ++ entries) t running := by
  cases running with
  | idle => trivial
  | putting key value phase => exact PutFacts.mono h hcompressor hhasher
  | getting key phase =>
    obtain ⟨began, hquiet, hfacts⟩ := h
    exact ⟨began, hquiet.append hothers, hfacts.mono hquiet.prefixed hcompressor hhasher hsegs hflushed⟩

end threads

/-! ### Steps -/

section step

variable {Tid : Type*} [DecidableEq Tid] {P : Platform} {options : Options} {sys : System Tid}
  {segs : List Segment} {flushed : Key → Option ByteString}

omit [DecidableEq Tid] in
theorem SystemInv.writer_ne (h : SystemInv P options sys segs flushed) {t : Tid}
    (hfree : (sys.running t).holdsLock = false) : sys.writer ≠ some t := by
  intro hwriter
  rw [← h.holds, hfree] at hwriter
  cases hwriter

/-- What a turn of a thread has to keep for itself; the others keep what they know. -/
theorem SystemInv.take (h : SystemInv P options sys segs flushed) {t : Tid} {turn : Turn} {segs' : List Segment}
    {flushed' : Key → Option ByteString} (hreadable : Readable P options turn.store segs' flushed')
    (hsegs : ∀ seg ∈ segs, seg ∈ segs')
    (hflushed : flushed' = flushed ∨ flushed' = latestPut (sys.take t turn).history)
    (hlock : turn.running.holdsLock = turn.holds)
    (hexclusive : turn.holds = true → ∀ t', sys.writer = some t' → t' = t)
    (hfree : (sys.take t turn).writer = none →
      SessionInv P options ⟨turn.store, latestPut (sys.take t turn).history, flushed'⟩ segs')
    (hwriting : ∀ t' key value phase, (sys.take t turn).writer = some t' →
      (sys.take t turn).running t' = .putting key value phase →
      Writing P options turn.store (latestPut (sys.take t turn).history) segs' flushed' key value phase)
    (hcall : CallFacts P options turn.store.engine segs' flushed' (sys.take t turn).history t turn.running)
    (hentries : turn.entries = [] ∨ ∃ entry, turn.entries = [entry] ∧ EntryFacts sys.history (t, entry)) :
    SystemInv P options (sys.take t turn) segs' flushed' := by
  constructor
  · exact hreadable
  · rcases hflushed with rfl | rfl
    · obtain ⟨before, hle, heq⟩ := h.past
      exact ⟨before, hle.trans (List.prefix_append _ _), heq⟩
    · exact ⟨_, List.prefix_refl _, rfl⟩
  · exact hfree
  · exact hwriting
  · intro t'
    show (Function.update sys.running t turn.running t').holdsLock = true ↔
      (if turn.holds then some t else if sys.writer = some t then none else sys.writer) = some t'
    by_cases hne : t' = t
    · subst hne
      rw [Function.update_self, hlock]
      cases turn.holds with
      | true => exact iff_of_true rfl rfl
      | false =>
        refine iff_of_false Bool.false_ne_true ?_
        rw [if_neg Bool.false_ne_true]
        split_ifs with hwriter
        · exact not_false
        · exact hwriter
    · rw [Function.update_of_ne hne, h.holds]
      cases hholds : turn.holds with
      | true =>
        refine iff_of_false (fun hwriter => hne (hexclusive hholds t' hwriter)) ?_
        exact fun heq => hne (Option.some.inj heq).symm
      | false =>
        rw [if_neg Bool.false_ne_true]
        split_ifs with hwriter
        · rw [hwriter]
          exact iff_of_false (fun heq => hne (Option.some.inj heq).symm) not_false
        · exact Iff.rfl
  · intro t'
    show CallFacts P options turn.store.engine segs' flushed' (sys.take t turn).history t'
      (Function.update sys.running t turn.running t')
    by_cases hne : t' = t
    · subst hne
      rw [Function.update_self]
      exact hcall
    · rw [Function.update_of_ne hne]
      refine (h.calls t').mono (hreadable.compressor.trans h.readable.compressor.symm)
        (hreadable.hasher.trans h.readable.hasher.symm) hsegs hflushed ?_
      intro entry hmem
      obtain ⟨entry, -, rfl⟩ := List.mem_map.mp hmem
      exact Ne.symm hne
  · rcases hentries with hnil | ⟨entry, hentry, hfacts⟩
    · unfold System.take
      rw [hnil, List.map_nil, List.append_nil]
      exact h.entries
    · unfold System.take
      rw [hentry]
      exact forall_split_append h.entries hfacts

theorem SystemInv.aside (h : SystemInv P options sys segs flushed) {t : Tid} (running : Running)
    (entries : List Happening) (hbefore : (sys.running t).holdsLock = false) (hafter : running.holdsLock = false)
    (hnothing : ∀ entry ∈ entries, ∀ key, insertion key (t, entry) = none)
    (hcall : CallFacts P options sys.store.engine segs flushed
      (sys.history ++ entries.map fun entry => (t, entry)) t running)
    (hentries : entries = [] ∨ ∃ entry, entries = [entry] ∧ EntryFacts sys.history (t, entry)) :
    SystemInv P options (sys.take t { store := sys.store, holds := false, running := running, entries := entries })
      segs flushed := by
  have hwriter := h.writer_ne hbefore
  have hkeep : (sys.take t { store := sys.store, holds := false, running := running, entries := entries }).writer
      = sys.writer := if_neg hwriter
  have hlatest : latestPut (sys.take t
      { store := sys.store, holds := false, running := running, entries := entries }).history
        = latestPut sys.history := by
    apply latestPut_append
    intro entry hmem key
    obtain ⟨entry, hmem', rfl⟩ := List.mem_map.mp hmem
    exact hnothing entry hmem' key
  refine h.take h.readable (fun seg hseg => hseg) (Or.inl rfl) hafter (fun hholds => by cases hholds) ?_ ?_ hcall
    hentries
  · intro hnone
    rw [hkeep] at hnone
    rw [hlatest]
    exact h.free hnone
  · intro t' key value phase hwriter' hrun
    rw [hkeep] at hwriter'
    have hne : t' ≠ t := by
      rintro rfl
      exact hwriter hwriter'
    change Function.update sys.running t running t' = _ at hrun
    rw [Function.update_of_ne hne] at hrun
    rw [hlatest]
    exact h.writing t' key value phase hwriter' hrun

theorem SystemInv.under (h : SystemInv P options sys segs flushed) {t : Tid} {s : Store} {key : Key}
    {value : ByteString} {phase : PutPhase} {entries : List Happening}
    (hreadable : Readable P options s segs flushed) (hlocked : (Running.putting key value phase).holdsLock = true)
    (hexclusive : ∀ t', sys.writer = some t' → t' = t)
    (hwriting : Writing P options s (latestPut (sys.history ++ entries.map fun entry => (t, entry))) segs flushed
      key value phase)
    (hinserted : latestPut (sys.history ++ entries.map fun entry => (t, entry)) key ≠ none)
    (hentries : entries = [] ∨ ∃ entry, entries = [entry] ∧ EntryFacts sys.history (t, entry)) :
    SystemInv P options
      (sys.take t { store := s, holds := true, running := .putting key value phase, entries := entries })
      segs flushed := by
  refine h.take hreadable (fun seg hseg => hseg) (Or.inl rfl) hlocked (fun _ => hexclusive) ?_ ?_ ?_ hentries
  · intro hnone
    cases hnone
  · intro t' key' value' phase' hwriter hrun
    cases hwriter
    change Function.update sys.running t _ t = _ at hrun
    rw [Function.update_self] at hrun
    cases hrun
    exact hwriting
  · cases phase <;> first | exact hinserted | cases hlocked

theorem SystemInv.lock (h : SystemInv P options sys segs flushed) {t : Tid} {key : Key} {value : ByteString}
    {row : SSTableRow} (hwriter : sys.writer = none) (hrun : sys.running t = .putting key value (.locking row))
    (hfits : snapshotDue (sys.store.write row) = true → (sys.store.write row).engine.segmentId < 2 ^ 32 ∧
      RowsFit (sys.store.write row).engine.memTable.createSortedStringsTable.rows) :
    SystemInv P options (sys.take t (putTurn P sys.store key value (.locking row))) segs flushed := by
  have hcall := h.calls t
  rw [hrun] at hcall
  obtain ⟨hkey, hrow, hreads⟩ := hcall
  have hlatest := latestPut_insert sys.history t key value
  have hreadable : Readable P options (putTurn P sys.store key value (.locking row)).store segs flushed :=
    h.readable.putTurn key value fun segment hnext => by cases hnext
  refine h.under hreadable rfl ?_ ?_ ?_ (Or.inr ⟨_, rfl, trivial⟩)
  · intro t' hwriter'
    rw [hwriter] at hwriter'
    cases hwriter'
  · show Writing P options (sys.store.write row) (latestPut (sys.history ++ [(t, .insert key value)])) segs flushed
      key value .checking
    rw [hlatest]
    exact (h.free hwriter).writing hkey value hrow hreads hfits
  · show latestPut (sys.history ++ [(t, .insert key value)]) key ≠ none
    rw [hlatest, Function.update_self]
    exact Option.some_ne_none value

theorem SystemInv.locked (h : SystemInv P options sys segs flushed) {t : Tid} {key : Key} {value : ByteString}
    {phase : PutPhase} (hwriter : sys.writer = some t) (hrun : sys.running t = .putting key value phase)
    (hlast : ∀ result, phase ≠ .unlocking result) :
    SystemInv P options (sys.take t (putTurn P sys.store key value phase)) segs flushed := by
  have hlocked := (h.holds t).mpr hwriter
  have hcall := h.calls t
  rw [hrun] at hlocked hcall
  have hinserted : latestPut sys.history key ≠ none := by
    cases phase <;> first | exact hcall | cases hlocked
  have hwriting := h.writing t key value phase hwriter hrun
  obtain ⟨s', phase', hturn, hlocked', hwriting'⟩ := hwriting.turn hlocked hlast
  have hreadable := h.readable.putTurn key value hwriting.fresh
  rw [hturn] at hreadable ⊢
  have hhistory : (sys.history ++ ([] : List Happening).map fun entry => (t, entry)) = sys.history :=
    List.append_nil _
  refine h.under hreadable hlocked' ?_ ?_ ?_ (Or.inl rfl)
  · intro t' hwriter'
    rw [hwriter] at hwriter'
    exact (Option.some.inj hwriter').symm
  · rw [hhistory]
    exact hwriting'
  · rw [hhistory]
    exact hinserted

theorem SystemInv.unlock (h : SystemInv P options sys segs flushed) {t : Tid} {key : Key} {value : ByteString}
    {result : Except Fault Unit} (hwriter : sys.writer = some t)
    (hrun : sys.running t = .putting key value (.unlocking result)) :
    ∃ segs' flushed', SystemInv P options (sys.take t (putTurn P sys.store key value (.unlocking result)))
      segs' flushed' := by
  obtain ⟨rfl, segs', flushed', hinv, hsegs, hflushed⟩ := (h.writing t key value _ hwriter hrun).unlocking
  have hcall := h.calls t
  rw [hrun] at hcall
  have hlatest : latestPut (sys.take t (putTurn P sys.store key value (.unlocking (.ok ())))).history
      = latestPut sys.history := by
    apply latestPut_append
    intro entry hmem key'
    rw [List.mem_singleton.mp hmem]
    rfl
  have hreleased : (sys.take t (putTurn P sys.store key value (.unlocking (.ok ())))).writer = none := by
    show (if sys.writer = some t then none else sys.writer) = none
    rw [if_pos hwriter]
  refine ⟨segs', flushed', h.take hinv.readable hsegs ?_ rfl (fun hholds => by cases hholds) ?_ ?_ trivial
    (Or.inr ⟨_, rfl, hcall⟩)⟩
  · rw [hlatest]
    exact hflushed
  · intro _
    rw [hlatest]
    exact hinv
  · intro t' key' value' phase' hwriter'
    rw [hreleased] at hwriter'
    cases hwriter'

theorem SystemInv.advance (h : SystemInv P options sys segs flushed) (t : Tid)
    (hfits : SnapshotsFit sys (.advance t)) :
    ∃ segs' flushed', SystemInv P options (sys.advance P t) segs' flushed' := by
  unfold System.advance
  by_cases hblocked : ((sys.running t).wantsLock && sys.writer.isSome) = true
  · rw [if_pos hblocked]
    exact ⟨segs, flushed, h⟩
  rw [if_neg hblocked]
  have hfree : (sys.running t).wantsLock = true → sys.writer = none := by
    intro hwants
    rw [hwants, Bool.true_and] at hblocked
    simpa using hblocked
  have hcall := h.calls t
  cases hrun : sys.running t with
  | idle => exact ⟨segs, flushed, h⟩
  | putting key value phase =>
    rw [hrun] at hcall
    dsimp only [turn]
    cases phase with
    | compressing =>
      obtain ⟨hkey, hback⟩ := hcall
      unfold putTurn
      dsimp only
      cases hrow : compressRow sys.store.engine key value with
      | error fault =>
        refine ⟨segs, flushed, h.aside _ _ (by rw [hrun]; rfl) rfl ?_ trivial (Or.inr ⟨_, rfl, trivial⟩)⟩
        intro entry hmem key'
        rw [List.mem_singleton.mp hmem]
        rfl
      | ok row =>
        obtain ⟨heq, hreads⟩ := compressRow_reads h.readable.compressor hback hrow
        exact ⟨segs, flushed, h.aside _ _ (by rw [hrun]; rfl) rfl (by simp) ⟨hkey, heq, hreads⟩ (Or.inl rfl)⟩
    | locking row =>
      have hwriter : sys.writer = none := hfree (by rw [hrun]; rfl)
      exact ⟨segs, flushed, h.lock hwriter hrun (hfits t key value row rfl hrun hwriter)⟩
    | unlocking result =>
      have hwriter : sys.writer = some t := (h.holds t).mp (by rw [hrun]; rfl)
      exact h.unlock hwriter hrun
    | _ =>
      have hwriter : sys.writer = some t := (h.holds t).mp (by rw [hrun]; rfl)
      exact ⟨segs, flushed, h.locked hwriter hrun (by intro result heq; cases heq)⟩
  | getting key phase =>
    rw [hrun] at hcall hfree
    obtain ⟨began, hquiet, hfacts⟩ := hcall
    dsimp only [turn]
    rcases hfacts.turn hquiet.prefixed h.readable h.past (fun hwants => h.free (hfree hwants)) with
      ⟨phase', hturn, hfacts'⟩ | ⟨moment, hmoment, hturn⟩
    · rw [hturn]
      refine ⟨segs, flushed, h.aside _ _ (by rw [hrun]; rfl) rfl (by simp) ?_ (Or.inl rfl)⟩
      rw [List.map_nil, List.append_nil]
      exact ⟨began, hquiet, hfacts'⟩
    · rw [hturn]
      refine ⟨segs, flushed, h.aside _ _ (by rw [hrun]; rfl) rfl ?_ trivial
        (Or.inr ⟨_, rfl, began, hquiet, moment, hmoment, rfl⟩)⟩
      intro entry hmem key'
      rw [List.mem_singleton.mp hmem]
      rfl

theorem SystemInv.step (h : SystemInv P options sys segs flushed) {action : Action Tid}
    (hordinary : action.Ordinary P options) (hfits : SnapshotsFit sys action) :
    ∃ segs' flushed', SystemInv P options (sys.step P action) segs' flushed' := by
  cases action with
  | advance t => exact h.advance t hfits
  | put t key value =>
    unfold System.step
    dsimp only
    cases hrun : sys.running t with
    | idle =>
      have hbefore : (sys.running t).holdsLock = false := by rw [hrun]; rfl
      have hnext := h.aside (.putting key value .compressing) [.invokePut key value] hbefore rfl
        (by simp [insertion]) hordinary (Or.inr ⟨_, rfl, trivial⟩)
      unfold System.take at hnext
      dsimp only at hnext
      rw [if_neg (h.writer_ne hbefore)] at hnext
      exact ⟨segs, flushed, hnext⟩
    | _ => exact ⟨segs, flushed, h⟩
  | get t key =>
    unfold System.step
    dsimp only
    cases hrun : sys.running t with
    | idle =>
      have hbefore : (sys.running t).holdsLock = false := by rw [hrun]; rfl
      have hnext := h.aside (.getting key .searching) [.invokeGet key] hbefore rfl
        (by simp [insertion]) ⟨sys.history, QuietSince.now _ _ _, trivial⟩ (Or.inr ⟨_, rfl, trivial⟩)
      unfold System.take at hnext
      dsimp only at hnext
      rw [if_neg (h.writer_ne hbefore)] at hnext
      exact ⟨segs, flushed, hnext⟩
    | _ => exact ⟨segs, flushed, h⟩

end step

theorem SystemInv.getsLinearize {Tid : Type*} {P : Platform} {options : Options} {sys : System Tid}
    {segs : List Segment} {flushed : Key → Option ByteString} (h : SystemInv P options sys segs flushed) :
    GetsLinearize sys.history := by
  intro before after t key result hsplit
  obtain ⟨began, ⟨during, hduring, hquiet⟩, moment, hmoment, hresult⟩ :=
    h.entries before (t, .returnGet key result) after hsplit
  dsimp only at hduring hmoment hquiet
  refine ⟨began, during, by rw [hduring]; simp, hquiet, ?_⟩
  cases hlatest : latestPut moment key with
  | some value => exact Or.inl ⟨value, moment, by rw [hresult, hlatest], hmoment, hlatest⟩
  | none =>
    refine Or.inr ⟨by rw [hresult, hlatest], ?_⟩
    intro t' hreturned
    -- a put that had returned had inserted its row
    obtain ⟨first, rest, hbegan⟩ := List.append_of_mem hreturned
    have hput := h.entries first (t', .returnPut key (.ok ()))
      (rest ++ (t, .invokeGet key) :: (during ++ (t, .returnGet key result) :: after)) (by
        rw [hsplit, hduring, hbegan]
        simp)
    have hprefix : first <+: moment := by
      refine List.IsPrefix.trans ?_ hmoment.1
      rw [hbegan]
      exact ⟨(t', .returnPut key (.ok ())) :: rest ++ [(t, .invokeGet key)], by simp⟩
    exact latest_ne_none hprefix hput hlatest

/-! ### Progress -/

/-- The turns a get has left at most, those not counted in which it waits. -/
def GetPhase.turnsLeft : GetPhase → Nat
  | .searching => kNumHashes + 5
  | .testing rest => rest.length + 4
  | .indexing => 3
  | .reading _ => 2
  | .finishing _ => 1

theorem getTurn_cases (P : Platform) (s : Store) (key : Key) (phase : GetPhase) :
    (∃ phase', getTurn P s key phase = { store := s, holds := false, running := .getting key phase' } ∧
      phase'.turnsLeft < phase.turnsLeft) ∨
    ∃ result, getTurn P s key phase =
      { store := s, holds := false, running := .idle, entries := [.returnGet key result] } := by
  unfold getTurn
  cases phase with
  | searching =>
    dsimp only
    split
    · exact Or.inl ⟨_, rfl, show 1 < kNumHashes + 5 by decide⟩
    · refine Or.inl ⟨_, rfl, ?_⟩
      simp only [GetPhase.turnsLeft, BloomFilter.positions, List.length_map, List.length_range]
      omega
  | testing rest =>
    cases rest with
    | nil => exact Or.inl ⟨_, rfl, by decide⟩
    | cons j rest =>
      dsimp only
      split
      · refine Or.inl ⟨_, rfl, ?_⟩
        simp only [GetPhase.turnsLeft, List.length_cons]
        omega
      · refine Or.inl ⟨_, rfl, ?_⟩
        simp only [GetPhase.turnsLeft, List.length_cons]
        omega
  | indexing =>
    dsimp only
    split
    · exact Or.inl ⟨_, rfl, show 1 < 3 by decide⟩
    · exact Or.inl ⟨_, rfl, show 2 < 3 by decide⟩
  | reading hint =>
    dsimp only
    split
    · exact Or.inr ⟨_, rfl⟩
    · exact Or.inl ⟨_, rfl, show 1 < 2 by decide⟩
  | finishing found => exact Or.inr ⟨_, rfl⟩

section progress

variable {Tid : Type*} [DecidableEq Tid] {P : Platform} {sys : System Tid}

theorem System.returns {t : Tid} {key : Key} {phase : GetPhase} (hwriter : sys.writer = none)
    (hrun : sys.running t = .getting key phase) : ∃ m result,
      (Runs.run (System.step P) sys (List.replicate m (.advance t))).history.getLast?
        = some (t, .returnGet key result) := by
  induction hleft : phase.turnsLeft using Nat.strong_induction_on generalizing sys phase with
  | _ left ih =>
    subst hleft
    have hstep : sys.step P (.advance t) = sys.take t (getTurn P sys.store key phase) := by
      show sys.advance P t = _
      unfold System.advance
      rw [hrun, hwriter]
      simp only [Option.isSome_none, Bool.and_false, Bool.false_eq_true, if_false]
      rfl
    rcases getTurn_cases P sys.store key phase with ⟨phase', hturn, hless⟩ | ⟨result, hturn⟩
    · rw [hturn] at hstep
      have hwriter' : (sys.step P (.advance t)).writer = none := by
        rw [hstep]
        show (if sys.writer = some t then none else sys.writer) = none
        rw [hwriter]
        rfl
      have hrun' : (sys.step P (.advance t)).running t = .getting key phase' := by
        rw [hstep]
        exact Function.update_self ..
      obtain ⟨m, result, hlast⟩ := ih phase'.turnsLeft hless hwriter' hrun' rfl
      exact ⟨m + 1, result, hlast⟩
    · refine ⟨1, result, ?_⟩
      show (sys.step P (.advance t)).history.getLast? = _
      rw [hstep, hturn]
      exact List.getLast?_concat

theorem System.step_locked {w : Tid} {key : Key} {value : ByteString} {phase : PutPhase}
    (hrun : sys.running w = .putting key value phase)
    (hlocked : (Running.putting key value phase).holdsLock = true) :
    sys.step P (.advance w) = sys.take w (putTurn P sys.store key value phase) := by
  have hwants : (Running.putting key value phase).wantsLock = false := by
    cases phase <;> first | rfl | cases hlocked
  show sys.advance P w = _
  unfold System.advance
  rw [hrun, hwants]
  rfl

theorem System.unlocked {w : Tid} {key : Key} {value : ByteString} {result : Except Fault Unit}
    (hwriter : sys.writer = some w) (hrun : sys.running w = .putting key value (.unlocking result)) :
    ∃ m, (Runs.run (System.step P) sys (List.replicate m (.advance w))).writer = none ∧
      ∀ t, t ≠ w → (Runs.run (System.step P) sys (List.replicate m (.advance w))).running t = sys.running t := by
  have hstep := System.step_locked (P := P) hrun rfl
  refine ⟨1, ?_, ?_⟩
  · show (sys.step P (.advance w)).writer = none
    rw [hstep]
    exact if_pos hwriter
  · intro t hne
    show (sys.step P (.advance w)).running t = _
    rw [hstep]
    exact Function.update_of_ne hne ..

/-- A put that would unlock if it were alone unlocks after its own turns. -/
theorem System.released {w : Tid} {key : Key} {value : ByteString} {phase : PutPhase} {last : Turn}
    {result : Except Fault Unit} (hwriter : sys.writer = some w) (hrun : sys.running w = .putting key value phase)
    (hlocked : (Running.putting key value phase).holdsLock = true)
    (hlast : Alone P { store := sys.store, holds := true, running := .putting key value phase } last)
    (hunlocking : last.running = .putting key value (.unlocking result)) :
    ∃ m, (Runs.run (System.step P) sys (List.replicate m (.advance w))).writer = none ∧
      ∀ t, t ≠ w → (Runs.run (System.step P) sys (List.replicate m (.advance w))).running t = sys.running t := by
  obtain ⟨n, hn⟩ := hlast
  induction n generalizing sys phase with
  | zero =>
    subst hn
    cases hunlocking
    exact System.unlocked hwriter hrun
  | succ n ih =>
    by_cases hdone : ∃ result, phase = .unlocking result
    · obtain ⟨result', rfl⟩ := hdone
      exact System.unlocked hwriter hrun
    · obtain ⟨s', phase', hturn, hlocked', -⟩ :=
        putTurn_locked P sys.store key value hlocked fun result' heq => hdone ⟨result', heq⟩
      have hstep := System.step_locked (P := P) hrun hlocked
      rw [hturn] at hstep
      have hrun' : (sys.step P (.advance w)).running w = .putting key value phase' := by
        rw [hstep]
        exact Function.update_self ..
      rw [Function.iterate_succ_apply] at hn
      unfold Turn.next OmxDb.turn at hn
      dsimp only at hn
      rw [hturn] at hn
      have hwriter' : (sys.step P (.advance w)).writer = some w := by
        rw [hstep]
        rfl
      obtain ⟨m, hfree, hothers⟩ := ih hwriter' hrun' hlocked' (by
        rw [hstep]
        exact hn)
      refine ⟨m + 1, hfree, ?_⟩
      intro t hne
      refine (hothers t hne).trans ?_
      rw [hstep]
      exact Function.update_of_ne hne ..

theorem SystemInv.getsReturn {options : Options} {segs : List Segment} {flushed : Key → Option ByteString}
    (h : SystemInv P options sys segs flushed) : GetsReturn P sys := by
  intro t key phase hrun
  cases hwriter : sys.writer with
  | none =>
    obtain ⟨m, result, hlast⟩ := System.returns (P := P) hwriter hrun
    exact ⟨t, 0, m, result, hlast⟩
  | some w =>
    have hlocked := (h.holds w).mpr hwriter
    cases hput : sys.running w with
    | idle =>
      rw [hput] at hlocked
      cases hlocked
    | getting key' phase' =>
      rw [hput] at hlocked
      cases hlocked
    | putting key' value' phase' =>
      obtain ⟨s', segs', flushed', halone, -⟩ := (h.writing w key' value' phase' hwriter hput).ahead
      rw [hput] at hlocked
      obtain ⟨n, hfree, hothers⟩ := System.released hwriter hput hlocked halone rfl
      have hne : t ≠ w := by
        rintro rfl
        rw [hrun] at hput
        cases hput
      obtain ⟨m, result, hlast⟩ := System.returns (P := P) hfree ((hothers t hne).trans hrun)
      refine ⟨w, n, m, result, ?_⟩
      rw [Runs.run_append]
      exact hlast

end progress

/-! ### Runs on a fresh directory -/

theorem systemInv_initial {Tid : Type*} {P : Platform} {options : Options} {disk : Disk} {e : StorageEngine}
    (hopen : StorageEngine.open P {} options {} {} = (disk, .ok e)) :
    SystemInv P options ({ store := ⟨disk, e⟩ } : System Tid) [] (fun _ => none) := by
  obtain ⟨s, hopen', hsound, hmemTable, hopts, -, -⟩ := open_eq (persisted_empty P) (by simp) options
    (Or.inl ⟨rfl, rfl⟩) (m := {}) rfl
  rw [hopen] at hopen'
  cases hopen'
  have hsession : SessionInv P options { store := s } [] := by
    refine ⟨hopts, hsound, by simp, ?_, fun key => rfl⟩
    intro key
    rw [hmemTable]
    rfl
  refine ⟨hsession.readable, ⟨[], List.prefix_refl [], rfl⟩, fun _ => hsession, ?_, ?_, fun _ => trivial, ?_⟩
  · intro t key value phase hwriter
    cases hwriter
  · intro t
    exact iff_of_false Bool.false_ne_true (Option.some_ne_none t).symm
  · intro before entry after hsplit
    exact absurd hsplit.symm (by simp)

/-- On a store opened on an empty directory, whose puts are ordinary and whose snapshots fit, every get of every run
answers the latest put of some moment while it ran, and nothing only where no put had returned before it; and in every
state reached, a get that is under way can return. -/
theorem gets_linearizable {Tid : Type*} [DecidableEq Tid] (P : Platform) (options : Options) (disk : Disk)
    (e : StorageEngine) (hopen : StorageEngine.open P {} options {} {} = (disk, .ok e)) (actions : List (Action Tid))
    (hordinary : ∀ action ∈ actions, action.Ordinary P options)
    (hfits : Runs.Meets (System.step P) SnapshotsFit { store := ⟨disk, e⟩ } actions) :
    GetsLinearize (Runs.run (System.step P) { store := ⟨disk, e⟩ } actions).history ∧
      GetsReturn P (Runs.run (System.step P) { store := ⟨disk, e⟩ } actions) := by
  obtain ⟨segs, flushed, hfinal⟩ := Runs.run_inv
    (fun sys => ∃ segs flushed, SystemInv P options sys segs flushed)
    (fun sys action ⟨segs, flushed, h⟩ hcond => h.step hcond.1 hcond.2)
    ((Runs.Meets.of_forall _ _ hordinary).and hfits) ⟨[], fun _ => none, systemInv_initial hopen⟩
  exact ⟨hfinal.getsLinearize, hfinal.getsReturn⟩

/-- A get finds nothing in the memtable, a put inserts its row and moves it to a segment, and the get goes on. -/
def overtaken : List (Action Bool) :=
  [.get true ⟨1⟩, .advance true, .put false ⟨1⟩ (.single 97)] ++
    List.replicate 18 (.advance false) ++ List.replicate 11 (.advance true)

/-- The get answers what was put behind its first look. -/
theorem gets_linearizable_overtaken :
    (Runs.run (System.step plainPlatform) { store := freshSession.store } overtaken).history[4]?
        = some (true, .returnGet ⟨1⟩ (.ok (some (.single 97)))) ∧
      GetsLinearize (Runs.run (System.step plainPlatform) { store := freshSession.store } overtaken).history ∧
      GetsReturn plainPlatform (Runs.run (System.step plainPlatform) { store := freshSession.store } overtaken) := by
  refine ⟨by decide +kernel, ?_⟩
  apply gets_linearizable plainPlatform plainOptions freshSession.store.disk freshSession.store.engine
    open_freshSession
  · intro action hmem
    simp only [overtaken, List.mem_append, List.mem_cons, List.mem_replicate, List.not_mem_nil, or_false] at hmem
    rcases hmem with ((rfl | rfl | rfl) | ⟨-, rfl⟩) | ⟨-, rfl⟩
    · trivial
    · trivial
    · exact ⟨by decide, readsBack_noCompression _⟩
    · trivial
    · trivial
  · have hsmall : Runs.Meets (System.step plainPlatform) (fun sys action => insertsSmall sys action = true)
        { store := freshSession.store } overtaken := by decide +kernel
    exact hsmall.mono fun sys action => snapshotsFit_of_small

end OmxDb
