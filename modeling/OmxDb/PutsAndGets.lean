import OmxDb.Lib.Linearization
import OmxDb.Linearizability

/-!
# Puts and gets as those of a map

Whatever turns the threads take, their puts and gets are linearizable: they have the results they would have on a map,
one after the other, in an order that agrees with which call returned before which was invoked. A put takes effect
where it inserts its row, and a get at the moment whose latest put it answers, which can lie long before it returns.
So what is needed beyond the moments of the gets is where the puts are in the history (`PutTrace`).
-/

namespace OmxDb

open StorageEngine Histories Linearization

/-! ### Calls on a map -/

/-- What a call asks of the map. -/
inductive Asked where
  | put (key : Key) (value : ByteString)
  | get (key : Key)

inductive Answer where
  | put (result : Except Fault Unit)
  | get (result : Except Fault (Option ByteString))
deriving DecidableEq

def Happening.asked : Happening → Option Asked
  | .invokePut key value => some (.put key value)
  | .invokeGet key => some (.get key)
  | _ => none

def Happening.answer : Happening → Option Answer
  | .returnPut _ result => some (.put result)
  | .returnGet _ result => some (.get result)
  | _ => none

def Happening.inserts : Happening → Bool
  | .insert _ _ => true
  | _ => false

/-- What a put returns: it fails where the compressor does, or where there is no hasher. -/
def acceptPut (P : Platform) (options : Options) (value : ByteString) : Except Fault Unit :=
  match (createCompressor P options.compressionType).compress value with
  | .error fault => .error fault
  | .ok _ => if (createHasher P options.hashType).isSome then .ok () else .error .nullPointer

/-- A map whose puts can fail, as an object. -/
def mapObject (P : Platform) (options : Options) (contents : Key → Option ByteString) :
    Asked → (Key → Option ByteString) × Answer
  | .put key value =>
    match acceptPut P options value with
    | .error fault => (contents, .put (.error fault))
    | .ok () => (Function.update contents key (some value), .put (.ok ()))
  | .get key => (contents, .get (.ok (contents key)))

theorem mapObject_put_ok {P : Platform} {options : Options} {value : ByteString}
    (h : acceptPut P options value = .ok ()) (contents : Key → Option ByteString) (key : Key) :
    mapObject P options contents (.put key value)
      = (Function.update contents key (some value), .put (.ok ())) := by
  simp only [mapObject, h]

theorem mapObject_put_error {P : Platform} {options : Options} {value : ByteString} {fault : Fault}
    (h : acceptPut P options value = .error fault) (contents : Key → Option ByteString) (key : Key) :
    mapObject P options contents (.put key value) = (contents, .put (.error fault)) := by
  simp only [mapObject, h]

section calls

variable {Tid : Type*}

/-- A call of the history is the position of the entry that begins it, and returns at the next entry of its thread that
is not an insertion. -/
def Returned (history : List (Tid × Happening)) (call : Nat) (answer : Answer) (m : Nat) : Prop :=
  ∃ t begun happening, history[call]? = some (t, begun) ∧ begun.asked ≠ none ∧ call < m ∧
    history[m]? = some (t, happening) ∧ happening.answer = some answer ∧
    ∀ l happening', call < l → l < m → history[l]? = some (t, happening') → happening'.inserts = true

/-- The calls of a history. -/
def historyCalls (history : List (Tid × Happening)) : Calls Nat Asked Answer where
  invokedAt call asked m := m = call ∧ ∃ t begun, history[call]? = some (t, begun) ∧ begun.asked = some asked
  returnedAt := Returned history

/-- Every entry that returns from a call is the return of one. -/
def AllReturned (history : List (Tid × Happening)) : Prop :=
  ∀ (m : Nat) (t : Tid) happening answer, history[m]? = some (t, happening) → happening.answer = some answer →
    ∃ call, Returned history call answer m

/-! ### Where the puts are -/

/-- A put of the thread began there, and the thread has made no entry since. -/
def BegunPut (history : List (Tid × Happening)) (t : Tid) (key : Key) (value : ByteString) : Prop :=
  ∃ began, QuietSince Prod.fst t (began ++ [(t, Happening.invokePut key value)]) history

/-- A put of the thread began there and inserted its row, and the thread has made no other entry. -/
def InsertedPut (history : List (Tid × Happening)) (t : Tid) (key : Key) (value : ByteString) : Prop :=
  ∃ upto, BegunPut upto t key value ∧ QuietSince Prod.fst t (upto ++ [(t, Happening.insert key value)]) history

/-- Where a put is in the history, and whether it was accepted. -/
def PutTrace (P : Platform) (options : Options) (history : List (Tid × Happening)) (t : Tid) (key : Key)
    (value : ByteString) : PutPhase → Prop
  | .compressing => BegunPut history t key value
  | .locking _ => BegunPut history t key value ∧ acceptPut P options value = .ok ()
  | _ => InsertedPut history t key value ∧ acceptPut P options value = .ok ()

/-- What an entry of a put says of the history before it. -/
def PutEntry (P : Platform) (options : Options) (before : List (Tid × Happening)) (entry : Tid × Happening) : Prop :=
  match entry.2 with
  | .insert key value => BegunPut before entry.1 key value ∧ acceptPut P options value = .ok ()
  | .returnPut key (.ok ()) => ∃ value, InsertedPut before entry.1 key value ∧ acceptPut P options value = .ok ()
  | .returnPut key (.error fault) =>
    ∃ value, BegunPut before entry.1 key value ∧ acceptPut P options value = .error fault
  | _ => True

structure PutsInv (P : Platform) (options : Options) (sys : System Tid) : Prop where
  traces : ∀ t key value phase, sys.running t = .putting key value phase →
    PutTrace P options sys.history t key value phase
  entries : ∀ before entry after, sys.history = before ++ entry :: after → PutEntry P options before entry

theorem BegunPut.append {history x : List (Tid × Happening)} {t : Tid} {key : Key} {value : ByteString}
    (h : BegunPut history t key value) (hx : ∀ y ∈ x, y.1 ≠ t) : BegunPut (history ++ x) t key value := by
  obtain ⟨began, hquiet⟩ := h
  exact ⟨began, hquiet.append hx⟩

theorem InsertedPut.append {history x : List (Tid × Happening)} {t : Tid} {key : Key} {value : ByteString}
    (h : InsertedPut history t key value) (hx : ∀ y ∈ x, y.1 ≠ t) : InsertedPut (history ++ x) t key value := by
  obtain ⟨upto, hbegun, hquiet⟩ := h
  exact ⟨upto, hbegun, hquiet.append hx⟩

theorem PutTrace.append {P : Platform} {options : Options} {history x : List (Tid × Happening)} {t : Tid} {key : Key}
    {value : ByteString} {phase : PutPhase} (h : PutTrace P options history t key value phase)
    (hx : ∀ y ∈ x, y.1 ≠ t) : PutTrace P options (history ++ x) t key value phase := by
  cases phase with
  | compressing => exact BegunPut.append h hx
  | locking row => exact ⟨h.1.append hx, h.2⟩
  | _ => exact ⟨h.1.append hx, h.2⟩

theorem PutTrace.locked {P : Platform} {options : Options} {history : List (Tid × Happening)} {t : Tid} {key : Key}
    {value : ByteString} {phase : PutPhase} (hlocked : (Running.putting key value phase).holdsLock = true) :
    PutTrace P options history t key value phase ↔
      InsertedPut history t key value ∧ acceptPut P options value = .ok () := by
  cases phase <;> first | exact Iff.rfl | cases hlocked

end calls

theorem compressRow_accept {P : Platform} {options : Options} {e : StorageEngine}
    (hcompressor : e.compressor = some (createCompressor P options.compressionType))
    (hhasher : e.hasher = createHasher P options.hashType) (key : Key) (value : ByteString) :
    (compressRow e key value).map (fun _ => ()) = acceptPut P options value := by
  unfold compressRow acceptPut
  rw [hcompressor, hhasher]
  dsimp only
  cases (createCompressor P options.compressionType).compress value with
  | error fault => rfl
  | ok compressed => cases createHasher P options.hashType <;> rfl

section step

variable {Tid : Type*} [DecidableEq Tid] {P : Platform} {options : Options} {sys : System Tid}

theorem PutsInv.take (h : PutsInv P options sys) {t : Tid} {turn : Turn}
    (htrace : ∀ key value phase, turn.running = .putting key value phase →
      PutTrace P options (sys.history ++ turn.entries.map fun entry => (t, entry)) t key value phase)
    (hentries : turn.entries = [] ∨ ∃ entry, turn.entries = [entry] ∧ PutEntry P options sys.history (t, entry)) :
    PutsInv P options (sys.take t turn) where
  traces t' key value phase hrun := by
    change Function.update sys.running t turn.running t' = _ at hrun
    by_cases hne : t' = t
    · subst hne
      rw [Function.update_self] at hrun
      exact htrace key value phase hrun
    · rw [Function.update_of_ne hne] at hrun
      refine (h.traces t' key value phase hrun).append ?_
      intro entry hmem
      obtain ⟨entry, -, rfl⟩ := List.mem_map.mp hmem
      exact Ne.symm hne
  entries := by
    unfold System.take
    rcases hentries with hnil | ⟨entry, hentry, hfacts⟩
    · rw [hnil, List.map_nil, List.append_nil]
      exact h.entries
    · rw [hentry]
      exact forall_split_append h.entries hfacts

theorem PutsInv.begin (h : PutsInv P options sys) (t : Tid) (running : Running) (entry : Happening)
    (htrace : ∀ key value phase, running = .putting key value phase →
      PutTrace P options (sys.history ++ [(t, entry)]) t key value phase)
    (hentry : PutEntry P options sys.history (t, entry)) :
    PutsInv P options { sys with
      running := Function.update sys.running t running
      history := sys.history ++ [(t, entry)] } := by
  have hnext : PutsInv P options
      (sys.take t { store := sys.store, holds := false, running := running, entries := [entry] }) :=
    h.take htrace (Or.inr ⟨entry, rfl, hentry⟩)
  exact ⟨hnext.traces, hnext.entries⟩

theorem PutsInv.putTurn (h : PutsInv P options sys) {segs : List Segment} {flushed : Key → Option ByteString}
    (hsys : SystemInv P options sys segs flushed) {t : Tid} {key : Key} {value : ByteString} {phase : PutPhase}
    (hrun : sys.running t = .putting key value phase) :
    PutsInv P options (sys.take t (OmxDb.putTurn P sys.store key value phase)) := by
  have htrace := h.traces t key value phase hrun
  cases phase with
  | compressing =>
    have haccept := compressRow_accept hsys.readable.compressor hsys.readable.hasher key value
    unfold OmxDb.putTurn
    dsimp only
    cases hrow : compressRow sys.store.engine key value with
    | error fault =>
      rw [hrow] at haccept
      exact h.take (fun key' value' phase' heq => by cases heq)
        (Or.inr ⟨_, rfl, value, htrace, haccept.symm⟩)
    | ok row =>
      rw [hrow] at haccept
      refine h.take ?_ (Or.inl rfl)
      intro key' value' phase' heq
      cases heq
      rw [List.map_nil, List.append_nil]
      exact ⟨htrace, haccept.symm⟩
  | locking row =>
    refine h.take ?_ (Or.inr ⟨_, rfl, htrace⟩)
    intro key' value' phase' heq
    cases heq
    exact ⟨⟨sys.history, htrace.1, QuietSince.now _ _ _⟩, htrace.2⟩
  | unlocking result =>
    have hwriter : sys.writer = some t := (hsys.holds t).mp (by rw [hrun]; rfl)
    obtain ⟨rfl, -⟩ := (hsys.writing t key value _ hwriter hrun).unlocking
    exact h.take (fun key' value' phase' heq => by cases heq) (Or.inr ⟨_, rfl, value, htrace⟩)
  | _ =>
    have hlocked : (sys.running t).holdsLock = true := by rw [hrun]; rfl
    rw [hrun] at hlocked
    obtain ⟨s', phase', hturn, hlocked', -⟩ :=
      putTurn_locked P sys.store key value hlocked (by intro result heq; cases heq)
    rw [hturn]
    refine h.take ?_ (Or.inl rfl)
    intro key' value' phase'' heq
    cases heq
    rw [List.map_nil, List.append_nil, PutTrace.locked hlocked']
    exact htrace

theorem PutsInv.step (h : PutsInv P options sys) {segs : List Segment} {flushed : Key → Option ByteString}
    (hsys : SystemInv P options sys segs flushed) (action : Action Tid) :
    PutsInv P options (sys.step P action) := by
  cases action with
  | put t key value =>
    unfold System.step
    dsimp only
    cases hrun : sys.running t with
    | idle =>
      refine h.begin t _ _ ?_ trivial
      intro key' value' phase' heq
      cases heq
      exact ⟨sys.history, QuietSince.now _ _ _⟩
    | _ => exact h
  | get t key =>
    unfold System.step
    dsimp only
    cases hrun : sys.running t with
    | idle => exact h.begin t _ _ (fun key' value' phase' heq => by cases heq) trivial
    | _ => exact h
  | advance t =>
    show PutsInv P options (sys.advance P t)
    unfold System.advance
    split_ifs
    · exact h
    cases hrun : sys.running t with
    | idle => exact h
    | putting key value phase => exact h.putTurn hsys hrun
    | getting key phase =>
      rcases getTurn_cases P sys.store key phase with ⟨phase', hturn, -⟩ | ⟨result, hturn⟩
      · dsimp only [turn]
        rw [hturn]
        exact h.take (fun key' value' phase'' heq => by cases heq) (Or.inl rfl)
      · dsimp only [turn]
        rw [hturn]
        exact h.take (fun key' value' phase'' heq => by cases heq) (Or.inr ⟨_, rfl, trivial⟩)

end step

/-! ### Positions -/

section positions

variable {Tid : Type*} {history : List (Tid × Happening)} {call call' p m m' : Nat} {answer answer' : Answer}

/-- The put that began there inserted its row there, and its thread made no entry between. -/
def InsertedAt (history : List (Tid × Happening)) (call p : Nat) : Prop :=
  ∃ t key value, history[call]? = some (t, Happening.invokePut key value) ∧ call < p ∧
    history[p]? = some (t, Happening.insert key value) ∧
    ∀ l z, call < l → l < p → history[l]? = some z → z.1 ≠ t

theorem Happening.inserts_of_asked {happening : Happening} (h : happening.asked ≠ none) :
    happening.inserts = false := by
  cases happening <;> first | rfl | exact absurd rfl h

theorem Happening.inserts_of_answer {happening : Happening} (h : happening.answer = some answer) :
    happening.inserts = false := by
  cases happening <;> first | rfl | cases h

theorem Returned.call_unique (h : Returned history call answer m) (h' : Returned history call' answer' m) :
    call = call' := by
  obtain ⟨t, begun, happening, hbegun, hasked, hlt, hreturn, hanswer, hbetween⟩ := h
  obtain ⟨t', begun', happening', hbegun', hasked', hlt', hreturn', hanswer', hbetween'⟩ := h'
  rw [hreturn] at hreturn'
  cases hreturn'
  rcases Nat.lt_trichotomy call call' with hless | heq | hless
  · have hinserts := hbetween call' begun' hless hlt' hbegun'
    rw [Happening.inserts_of_asked hasked'] at hinserts
    cases hinserts
  · exact heq
  · have hinserts := hbetween' call begun hless hlt hbegun
    rw [Happening.inserts_of_asked hasked] at hinserts
    cases hinserts

theorem InsertedAt.call_unique (h : InsertedAt history call p) (h' : InsertedAt history call' p) : call = call' := by
  obtain ⟨t, key, value, hbegun, hlt, hinsert, hquiet⟩ := h
  obtain ⟨t', key', value', hbegun', hlt', hinsert', hquiet'⟩ := h'
  rw [hinsert] at hinsert'
  cases hinsert'
  rcases Nat.lt_trichotomy call call' with hless | heq | hless
  · exact absurd rfl (hquiet call' _ hless hlt' hbegun')
  · exact heq
  · exact absurd rfl (hquiet' call _ hless hlt hbegun)

theorem InsertedAt.unique {p' : Nat} (h : InsertedAt history call p) (h' : InsertedAt history call p') : p = p' := by
  obtain ⟨t, key, value, hbegun, hlt, hinsert, hquiet⟩ := h
  obtain ⟨t', key', value', hbegun', hlt', hinsert', hquiet'⟩ := h'
  rw [hbegun] at hbegun'
  cases hbegun'
  rcases Nat.lt_trichotomy p p' with hless | heq | hless
  · exact absurd rfl (hquiet' p _ hlt hless hinsert)
  · exact heq
  · exact absurd rfl (hquiet p' _ hlt' hless hinsert')

theorem Returned.unique {m' : Nat} (h : Returned history call answer m) (h' : Returned history call answer' m') :
    answer' = answer ∧ m' = m := by
  obtain ⟨t, begun, happening, hbegun, hasked, hlt, hreturn, hanswer, hbetween⟩ := h
  obtain ⟨t', begun', happening', hbegun', hasked', hlt', hreturn', hanswer', hbetween'⟩ := h'
  rw [hbegun] at hbegun'
  cases hbegun'
  rcases Nat.lt_trichotomy m m' with hless | heq | hless
  · have hinserts := hbetween' m happening hlt hless hreturn
    rw [Happening.inserts_of_answer hanswer] at hinserts
    cases hinserts
  · subst heq
    rw [hreturn] at hreturn'
    cases hreturn'
    rw [hanswer] at hanswer'
    exact ⟨(Option.some.inj hanswer').symm, rfl⟩
  · have hinserts := hbetween m' happening' hlt' hless hreturn'
    rw [Happening.inserts_of_answer hanswer'] at hinserts
    cases hinserts

theorem InsertedAt.lt_returned (h : InsertedAt history call p) (h' : Returned history call answer m) : p < m := by
  obtain ⟨t, key, value, hbegun, hlt, hinsert, hquiet⟩ := h
  obtain ⟨t', begun, happening, hbegun', -, hlt', hreturn, hanswer, -⟩ := h'
  rw [hbegun] at hbegun'
  cases hbegun'
  rcases Nat.lt_trichotomy p m with hless | heq | hless
  · exact hless
  · subst heq
    rw [hinsert] at hreturn
    cases hreturn
    cases hanswer
  · exact absurd rfl (hquiet m _ hlt' hless hreturn)

theorem Returned.of_quiet {began before after : List (Tid × Happening)} {t : Tid} {begun happening : Happening}
    (hquiet : QuietSince Prod.fst t (began ++ [(t, begun)]) before)
    (hsplit : history = before ++ (t, happening) :: after) (hasked : begun.asked ≠ none)
    (hanswer : happening.answer = some answer) : Returned history began.length answer before.length := by
  obtain ⟨hbegun, hlt, hothers⟩ := hquiet.getElem? ((t, happening) :: after)
  rw [← hsplit] at hbegun hothers
  refine ⟨t, begun, happening, hbegun, hasked, hlt, by simp [hsplit], hanswer, ?_⟩
  intro l happening' hlower hupper hl
  exact absurd rfl (hothers l _ hlower hupper hl)

theorem BegunPut.getElem? {before after : List (Tid × Happening)} {t : Tid} {key : Key} {value : ByteString}
    (h : BegunPut before t key value) (hsplit : history = before ++ after) :
    ∃ call, call < before.length ∧ history[call]? = some (t, .invokePut key value) ∧
      ∀ l z, call < l → l < before.length → history[l]? = some z → z.1 ≠ t := by
  obtain ⟨began, hquiet⟩ := h
  obtain ⟨hbegun, hlt, hothers⟩ := hquiet.getElem? after
  rw [← hsplit] at hbegun hothers
  exact ⟨began.length, hlt, hbegun, hothers⟩

theorem InsertedPut.returned {before after : List (Tid × Happening)} {t : Tid} {key : Key} {value : ByteString}
    {happening : Happening} (h : InsertedPut before t key value)
    (hsplit : history = before ++ (t, happening) :: after) (hanswer : happening.answer = some answer) :
    ∃ call p, InsertedAt history call p ∧ Returned history call answer before.length := by
  obtain ⟨upto, hbegun, hquiet⟩ := h
  obtain ⟨hinsert, hlt, hothers⟩ := hquiet.getElem? ((t, happening) :: after)
  rw [← hsplit] at hinsert hothers
  obtain ⟨during, hduring, -⟩ := hquiet
  have hupto : history = upto ++ ((t, Happening.insert key value) :: during ++ (t, happening) :: after) := by
    simp [hsplit, hduring]
  obtain ⟨call, hcall, hinvoke, hbefore⟩ := hbegun.getElem? hupto
  refine ⟨call, upto.length, ⟨t, key, value, hinvoke, hcall, hinsert, hbefore⟩, t, _, happening, hinvoke,
    Option.some_ne_none _, Nat.lt_trans hcall hlt, by simp [hsplit], hanswer, ?_⟩
  intro l happening' hlower hupper hl
  rcases Nat.lt_trichotomy l upto.length with hless | heq | hless
  · exact absurd rfl (hbefore l _ hlower hless hl)
  · subst heq
    rw [hinsert] at hl
    cases hl
    rfl
  · exact absurd rfl (hothers l _ hless hupper hl)

end positions

/-! ### Effects -/

/-- What the latest puts were at a moment. -/
def mapAt {Tid : Type*} (history : List (Tid × Happening)) (k : Nat) : Key → Option ByteString :=
  latestPut (history.take k)

/-- What is known of a call that has returned: its put inserted its row, failed, or its get answered a moment. -/
inductive Outcome {Tid : Type*} (P : Platform) (options : Options) (history : List (Tid × Happening)) (call m : Nat) :
    Answer → Prop where
  | inserted (p : Nat) (h : InsertedAt history call p) : Outcome P options history call m (.put (.ok ()))
  | failed (t : Tid) (key : Key) (value : ByteString) (fault : Fault)
      (hbegun : history[call]? = some (t, .invokePut key value))
      (haccept : acceptPut P options value = .error fault) : Outcome P options history call m (.put (.error fault))
  | answered (t : Tid) (key : Key) (k : Nat) (hbegun : history[call]? = some (t, .invokeGet key))
      (hlower : call < k) (hupper : k ≤ m) : Outcome P options history call m (.get (.ok (mapAt history k key)))

section effects

variable {Tid : Type*} {P : Platform} {options : Options} {sys : System Tid} {segs : List Segment}
  {flushed : Key → Option ByteString}

/-- Every entry that returns is that of a call of which this is known. -/
theorem PutsInv.outcome (h : PutsInv P options sys) (hsys : SystemInv P options sys segs flushed) {m : Nat} {t : Tid}
    {happening : Happening} {answer : Answer} (hm : sys.history[m]? = some (t, happening))
    (hanswer : happening.answer = some answer) :
    ∃ call, Returned sys.history call answer m ∧ Outcome P options sys.history call m answer := by
  obtain ⟨hsplit, hlength⟩ := split_of_getElem? hm
  have hput := h.entries _ _ _ hsplit
  have hget := hsys.entries _ _ _ hsplit
  cases happening with
  | returnPut key result =>
    cases hanswer
    cases result with
    | ok _ =>
      obtain ⟨value, hinserted, haccept⟩ := hput
      obtain ⟨call, p, hat, hreturned⟩ := hinserted.returned hsplit rfl
      rw [hlength] at hreturned
      exact ⟨call, hreturned, .inserted p hat⟩
    | error fault =>
      obtain ⟨value, ⟨began, hquiet⟩, haccept⟩ := hput
      have hreturned := Returned.of_quiet hquiet hsplit (Option.some_ne_none _) rfl
      have hbegun := (hquiet.getElem? ((t, Happening.returnPut key (.error fault)) :: sys.history.drop (m + 1))).1
      rw [← hsplit] at hbegun
      rw [hlength] at hreturned
      exact ⟨began.length, hreturned, .failed t key value fault hbegun haccept⟩
  | returnGet key result =>
    cases hanswer
    obtain ⟨began, hquiet, moment, hmoment, rfl⟩ := hget
    have hreturned := Returned.of_quiet hquiet hsplit (Option.some_ne_none _) rfl
    have hbegun := (hquiet.getElem?
      ((t, Happening.returnGet key (.ok (latestPut moment key))) :: sys.history.drop (m + 1))).1
    rw [← hsplit] at hbegun
    rw [hlength] at hreturned
    have hmap : moment = sys.history.take moment.length :=
      List.prefix_iff_eq_take.mp (hmoment.2.trans (List.take_prefix m sys.history))
    have hlower := hmoment.1.length_le
    have hupper := hmoment.2.length_le
    rw [hlength] at hupper
    rw [List.length_append, List.length_singleton] at hlower
    refine ⟨began.length, hreturned, ?_⟩
    rw [show latestPut moment key = mapAt sys.history moment.length key by unfold mapAt; rw [← hmap]]
    exact .answered t key moment.length hbegun hlower hupper
  | _ => cases hanswer

theorem PutsInv.insertedAt (h : PutsInv P options sys) {p : Nat} {t : Tid} {key : Key} {value : ByteString}
    (hp : sys.history[p]? = some (t, .insert key value)) :
    acceptPut P options value = .ok () ∧ ∃ call, InsertedAt sys.history call p := by
  obtain ⟨hsplit, hlength⟩ := split_of_getElem? hp
  obtain ⟨hbegun, haccept⟩ := h.entries _ _ _ hsplit
  obtain ⟨call, hlt, hinvoke, hquiet⟩ := BegunPut.getElem? hbegun hsplit
  rw [hlength] at hlt hquiet
  exact ⟨haccept, call, t, key, value, hinvoke, hlt, hp, hquiet⟩

theorem mapAt_insert {history : List (Tid × Happening)} {p : Nat} {t : Tid} {key : Key} {value : ByteString}
    (hp : history[p]? = some (t, .insert key value)) :
    mapAt history (p + 1) = Function.update (mapAt history p) key (some value) := by
  unfold mapAt
  rw [List.take_add_one, hp, Option.toList_some, latestPut_insert]

theorem mapAt_succ {history : List (Tid × Happening)} {k : Nat}
    (hk : ∀ t key value, history[k]? ≠ some (t, .insert key value)) : mapAt history (k + 1) = mapAt history k := by
  unfold mapAt
  rw [List.take_add_one]
  apply latestPut_append
  intro entry hmem key
  obtain ⟨t, happening⟩ := entry
  have hentry : history[k]? = some (t, happening) := by simpa [Option.mem_toList] using hmem
  cases happening with
  | insert key' value => exact absurd hentry (hk t key' value)
  | _ => rfl

/-- A call takes effect at a moment, where it reads the map or writes it. -/
structure Effect (P : Platform) (options : Options) (history : List (Tid × Happening)) (call : Nat) (asked : Asked)
    (answer : Answer) (k : Nat) (writing : Bool) : Prop where
  invoked : ∃ t begun, history[call]? = some (t, begun) ∧ begun.asked = some asked
  behind : call ≤ k
  lt : k < history.length
  returned : ∀ answer' m, Returned history call answer' m → answer' = answer ∧ k ≤ m
  maps : mapObject P options (mapAt history k) asked = (mapAt history (if writing then k + 1 else k), answer)
  inserted : ∀ p, InsertedAt history call p ↔ writing = true ∧ p = k

theorem PutsInv.not_insertedAt (h : PutsInv P options sys) {call p : Nat} {t : Tid} {begun : Happening}
    (hbegun : sys.history[call]? = some (t, begun))
    (hrefused : ∀ key value, begun = .invokePut key value → acceptPut P options value ≠ .ok ()) :
    ¬ InsertedAt sys.history call p := by
  rintro ⟨t', key, value, hput, -, hinsert, -⟩
  rw [hbegun] at hput
  cases hput
  exact hrefused key value rfl (h.insertedAt hinsert).1

theorem PutsInv.effect_of_inserted (h : PutsInv P options sys) (hsys : SystemInv P options sys segs flushed)
    {call p : Nat} (hat : InsertedAt sys.history call p) :
    ∃ asked, Effect P options sys.history call asked (.put (.ok ())) p true := by
  obtain ⟨t, key, value, hbegun, hlt, hinsert, hquiet⟩ := id hat
  obtain ⟨haccept, -⟩ := h.insertedAt hinsert
  refine ⟨.put key value, ⟨t, _, hbegun, rfl⟩, Nat.le_of_lt hlt, (List.getElem?_eq_some_iff.mp hinsert).1, ?_, ?_,
    fun p' => ⟨fun hat' => ⟨rfl, hat'.unique hat⟩, fun heq => heq.2 ▸ hat⟩⟩
  · intro answer m hreturned
    refine ⟨?_, Nat.le_of_lt (hat.lt_returned hreturned)⟩
    obtain ⟨t', begun, happening, -, -, -, hm, hanswer, -⟩ := id hreturned
    obtain ⟨call', hreturned', houtcome⟩ := h.outcome hsys hm hanswer
    cases hreturned'.call_unique hreturned
    cases houtcome with
    | inserted p' hat' => rfl
    | failed t' key' value' fault hbegun' hrefused =>
      rw [hbegun] at hbegun'
      cases hbegun'
      rw [haccept] at hrefused
      cases hrefused
    | answered t' key' k hbegun' hlower hupper =>
      rw [hbegun] at hbegun'
      cases hbegun'
  · rw [mapObject_put_ok haccept, if_pos rfl, mapAt_insert hinsert]

theorem PutsInv.effect_of_returned (h : PutsInv P options sys) (hsys : SystemInv P options sys segs flushed)
    {call m : Nat} {answer : Answer} (hreturned : Returned sys.history call answer m) :
    ∃ asked k writing, Effect P options sys.history call asked answer k writing := by
  obtain ⟨t, begun, happening, hbegun, hasked, hlt, hm, hanswer, -⟩ := id hreturned
  have hlength := (List.getElem?_eq_some_iff.mp hm).1
  obtain ⟨call', hreturned', houtcome⟩ := h.outcome hsys hm hanswer
  cases hreturned'.call_unique hreturned
  have honly : ∀ k ≤ m, ∀ answer' m', Returned sys.history call answer' m' → answer' = answer ∧ k ≤ m' := by
    intro k hk answer' m' hagain
    obtain ⟨heq, hsame⟩ := hreturned.unique hagain
    exact ⟨heq, by omega⟩
  cases houtcome with
  | inserted p hat =>
    obtain ⟨asked, heffect⟩ := h.effect_of_inserted hsys hat
    exact ⟨asked, p, true, heffect⟩
  | failed t' key value fault hput hrefused =>
    refine ⟨.put key value, m, false, ⟨t', _, hput, rfl⟩, Nat.le_of_lt hlt, hlength, honly m (le_refl m), ?_, ?_⟩
    · exact mapObject_put_error hrefused _ key
    · intro p
      refine iff_of_false (h.not_insertedAt hput ?_) (fun heq => by cases heq.1)
      intro key' value' heq
      cases heq
      rw [hrefused]
      exact fun heq => by cases heq
  | answered t' key k hget hlower hupper =>
    refine ⟨.get key, k, false, ⟨t', _, hget, rfl⟩, Nat.le_of_lt hlower, by omega, honly k hupper, rfl, ?_⟩
    intro p
    refine iff_of_false (h.not_insertedAt hget ?_) (fun heq => by cases heq.1)
    intro key' value' heq
    cases heq

end effects

/-! ### Linearizations -/

section linearize

variable {Tid : Type*} {P : Platform} {options : Options} {sys : System Tid} {segs : List Segment}
  {flushed : Key → Option ByteString}

/-- The points of the calls that took effect. -/
theorem PutsInv.exists_points (h : PutsInv P options sys) (hsys : SystemInv P options sys segs flushed) :
    Nonempty (Points (mapObject P options) (historyCalls sys.history) (mapAt sys.history) sys.history.length) := by
  classical
  have hchoice : ∀ call, ∃ asked answer k writing,
      (∃ asked answer k writing, Effect P options sys.history call asked answer k writing) →
        Effect P options sys.history call asked answer k writing := by
    intro call
    by_cases heffect : ∃ asked answer k writing, Effect P options sys.history call asked answer k writing
    · obtain ⟨asked, answer, k, writing, hcall⟩ := heffect
      exact ⟨asked, answer, k, writing, fun _ => hcall⟩
    · exact ⟨.get ⟨0⟩, .put (.ok ()), 0, false, fun hcall => absurd hcall heffect⟩
  choose asked answer k writing hchosen using hchoice
  have heffects : ∀ call ∈ (List.range sys.history.length).filter fun call =>
      decide (∃ asked answer k writing, Effect P options sys.history call asked answer k writing),
      Effect P options sys.history call (asked call) (answer call) (k call) (writing call) := by
    intro call hmem
    exact hchosen call (of_decide_eq_true (List.mem_filter.mp hmem).2)
  have hincluded : ∀ {call asked' answer' k' writing'},
      Effect P options sys.history call asked' answer' k' writing' →
        call ∈ (List.range sys.history.length).filter fun call =>
          decide (∃ asked answer k writing, Effect P options sys.history call asked answer k writing) := by
    intro call asked' answer' k' writing' heffect
    obtain ⟨t, begun, hbegun, -⟩ := heffect.invoked
    exact List.mem_filter.mpr ⟨List.mem_range.mpr (List.getElem?_eq_some_iff.mp hbegun).1,
      decide_eq_true ⟨_, _, _, _, heffect⟩⟩
  exact ⟨{
    included := (List.range sys.history.length).filter fun call =>
      decide (∃ asked answer k writing, Effect P options sys.history call asked answer k writing)
    operation := asked
    answer := answer
    point := k
    writes := writing
    unique := List.nodup_range.filter _
    point_lt := fun call hmem => (heffects call hmem).lt
    invoked := fun call hmem => ⟨call, rfl, (heffects call hmem).invoked⟩
    behind := by
      rintro call hmem operation m ⟨rfl, -⟩
      exact (heffects m hmem).behind
    returned := by
      intro call result m hreturned
      obtain ⟨asked', k', writing', heffect⟩ := h.effect_of_returned hsys hreturned
      have hmem := hincluded heffect
      obtain ⟨heq, hle⟩ := (heffects call hmem).returned result m hreturned
      exact ⟨hmem, heq.symm, hle⟩
    reads_state := by
      intro call hmem hreads
      have hmaps := (heffects call hmem).maps
      rw [hreads] at hmaps
      exact hmaps
    writes_state := by
      intro call hmem hwrites
      have hmaps := (heffects call hmem).maps
      rw [hwrites] at hmaps
      exact hmaps
    alone := by
      intro call hmem call' hmem' hwrites hwrites' hpoint
      have hat := ((heffects call hmem).inserted (k call)).mpr ⟨hwrites, rfl⟩
      have hat' := ((heffects call' hmem').inserted (k call')).mpr ⟨hwrites', rfl⟩
      rw [← hpoint] at hat'
      exact hat.call_unique hat'
    still := by
      intro moment hmoment hreads
      apply mapAt_succ
      intro t key value hinsert
      obtain ⟨-, call, hat⟩ := h.insertedAt hinsert
      obtain ⟨asked', heffect⟩ := h.effect_of_inserted hsys hat
      have hmem := hincluded heffect
      obtain ⟨hwrites, hpoint⟩ := ((heffects call hmem).inserted moment).mp hat
      rw [hreads call hmem hpoint.symm] at hwrites
      cases hwrites }⟩

theorem SystemInv.get_eq (hsys : SystemInv P options sys segs flushed) (hfree : sys.writer = none) (key : Key) :
    StorageEngine.get P sys.store key = .ok (latestPut sys.history key) := by
  have hget := get_session (hsys.free hfree) key
  dsimp only at hget
  rw [hget]
  split_ifs with hnone
  · obtain ⟨before, hle, rfl⟩ := hsys.past
    have hbefore : latestPut before key = none := by
      by_contra hne
      exact latest_ne_none hle hne hnone
    rw [hbefore, hnone]
  · rfl

theorem putsInv_initial (store : Store) : PutsInv P options ({ store := store } : System Tid) where
  traces t key value phase hrun := by cases hrun
  entries before entry after hsplit := absurd hsplit.symm (by simp)

/-- On a store opened on an empty directory, whose puts are ordinary and whose snapshots fit, the puts and gets of every
run are linearizable as those of a map, and every return in the history is that of one of these calls. Where no put
holds the lock, the store answers every key as the map does at the end. -/
theorem puts_and_gets_linearizable [DecidableEq Tid] (P : Platform) (options : Options) (disk : Disk)
    (e : StorageEngine) (hopen : StorageEngine.open P {} options {} {} = (disk, .ok e)) (actions : List (Action Tid))
    (hordinary : ∀ action ∈ actions, action.Ordinary P options)
    (hfits : Runs.Meets (System.step P) SnapshotsFit { store := ⟨disk, e⟩ } actions) :
    let sys := Runs.run (System.step P) { store := ⟨disk, e⟩ } actions
    ∃ contents order,
      Linearizes (mapObject P options) (historyCalls sys.history) (fun _ => none) contents order ∧
      AllReturned sys.history ∧
      (sys.writer = none → ∀ key, StorageEngine.get P sys.store key = .ok (contents key)) := by
  intro sys
  obtain ⟨⟨segs, flushed, hsys⟩, hputs⟩ : (∃ segs flushed, SystemInv P options sys segs flushed) ∧
      PutsInv P options sys := by
    refine Runs.run_inv (fun sys => (∃ segs flushed, SystemInv P options sys segs flushed) ∧ PutsInv P options sys)
      ?_ ((Runs.Meets.of_forall _ _ hordinary).and hfits)
      ⟨⟨[], fun _ => none, systemInv_initial hopen⟩, putsInv_initial _⟩
    rintro sys action ⟨⟨segs, flushed, hsys⟩, hputs⟩ hcond
    exact ⟨hsys.step hcond.1 hcond.2, hputs.step hsys action⟩
  obtain ⟨points⟩ := hputs.exists_points hsys
  refine ⟨mapAt sys.history sys.history.length, points.answered, points.linearizes, ?_, ?_⟩
  · intro m t happening answer hm hanswer
    obtain ⟨call, hreturned, -⟩ := hputs.outcome hsys hm hanswer
    exact ⟨call, hreturned⟩
  · intro hfree key
    rw [hsys.get_eq hfree key]
    unfold mapAt
    rw [List.take_length]

end linearize

/-- In the run in which a get is overtaken by a put, the get comes second. -/
theorem puts_and_gets_linearizable_overtaken :
    let sys := Runs.run (System.step plainPlatform) { store := freshSession.store } overtaken
    ∃ contents order, Linearizes (mapObject plainPlatform plainOptions) (historyCalls sys.history) (fun _ => none)
        contents order ∧ AllReturned sys.history ∧
      (sys.writer = none → ∀ key, StorageEngine.get plainPlatform sys.store key = .ok (contents key)) := by
  apply puts_and_gets_linearizable plainPlatform plainOptions freshSession.store.disk freshSession.store.engine
    open_freshSession
  · intro action hmem
    simp only [overtaken, List.mem_append, List.mem_cons, List.mem_replicate, List.not_mem_nil, or_false] at hmem
    rcases hmem with ((rfl | rfl | rfl) | ⟨-, rfl⟩) | ⟨-, rfl⟩
    · trivial
    · trivial
    · exact ⟨by decide, readsBack_noCompression _⟩
    · trivial
    · trivial
  · have hsmall : Runs.Meets (System.step plainPlatform) (fun sys action => insertsSmall sys action = true)
        { store := freshSession.store } overtaken := by decide +kernel
    exact hsmall.mono fun sys action => snapshotsFit_of_small

end OmxDb
