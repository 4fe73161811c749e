import OmxDb.Lib.Runs
import Mathlib.Data.UInt

/-!
# The life of a server

`start` puts a thread into every object of `m_threads`, `stop` joins every one of them, and the destructor stops once
more. Nothing tells whether there are threads: an object with a thread must neither be assigned nor destroyed, and an
object without one must not be joined. So a server with threads has three phases, in two of which one of the calls
ends the program (`refines_step`). A life is safe if and only if every start that comes through is the last call, or
is followed by one stop and then by a start (`safe_iff`).
-/

namespace OmxDb

/-- What an object of `std::thread` cannot do: `join` without a thread, be assigned or be destroyed with one. -/
inductive ThreadFault where
  | notJoinable
  | overwritten
  | destroyed
deriving DecidableEq

/-- An object of `std::thread` is the number of its thread, if it has one. `started` threads there were so far, and
`joined` are those that were joined. -/
structure ServerBase where
  numThreads : UInt32
  threads : List (Option Nat) := []
  started : Nat := 0
  joined : List Nat := []

/-- A call of a server; what `init` calls may throw. -/
inductive ServerCall where
  | start (throws : Option String)
  | stop

namespace ServerBase

/-! ### Calls -/

/-- `DatabaseServerImpl::init` and `DatabaseServerImpl::close` return true, if they return. -/
def init (throws : Option String) : Except String Bool := throws.elim (.ok true) .error

def close : Bool := true

/-- The destructors of the objects. -/
def destroyThreads : List (Option Nat) → Except ThreadFault Unit
  | [] => .ok ()
  | none :: threads => destroyThreads threads
  | some _ :: _ => .error .destroyed

/-- `m_threads.resize(size)`. -/
def resizeThreads (threads : List (Option Nat)) (size : Nat) : Except ThreadFault (List (Option Nat)) := do
  destroyThreads (threads.drop size)
  return threads.take size ++ List.replicate (size - threads.length) none

/-- A new thread for every object. -/
def startThreads (started : Nat) : List (Option Nat) → Except ThreadFault (List (Option Nat) × Nat)
  | [] => .ok ([], started)
  | none :: threads => do
    let (threads, last) ← startThreads (started + 1) threads
    return (some started :: threads, last)
  | some _ :: _ => .error .overwritten

/-- The threads that are joined. -/
def joinThreads : List (Option Nat) → Except ThreadFault (List Nat)
  | [] => .ok []
  | none :: _ => .error .notJoinable
  | some thread :: threads => do
    let joined ← joinThreads threads
    return thread :: joined

def start (s : ServerBase) (throws : Option String) : Except ThreadFault ServerBase :=
  match init throws with
  | .ok true => do
    let threads ← resizeThreads s.threads s.numThreads.toNat
    let (threads, started) ← startThreads s.started threads
    return { s with threads := threads, started := started }
  | _ => .ok s

def stop (s : ServerBase) : Except ThreadFault ServerBase :=
  if close then do
    let joined ← joinThreads s.threads
    return { s with threads := s.threads.map fun _ => none, joined := s.joined ++ joined }
  else .ok s

def call (s : ServerBase) : ServerCall → Except ThreadFault ServerBase
  | .start throws => s.start throws
  | .stop => s.stop

/-- `~DatabaseServerImpl` stops, and `~ServerBase` destroys the objects. -/
def destroy (s : ServerBase) : Except ThreadFault ServerBase := do
  let s ← s.stop
  destroyThreads s.threads
  return s

/-- A server from its constructor to its destructor. -/
def life (numThreads : UInt32) (calls : List ServerCall) : Except ThreadFault ServerBase := do
  let s ← calls.foldlM call { numThreads := numThreads }
  s.destroy

/-- A life ends, and every thread there was has been joined. -/
def Safe (numThreads : UInt32) (calls : List ServerCall) : Prop :=
  ∃ s, life numThreads calls = .ok s ∧ ∀ thread < s.started, thread ∈ s.joined

/-! ### Objects -/

theorem destroyThreads_replicate (size : Nat) : destroyThreads (List.replicate size none) = .ok () := by
  induction size with
  | zero => rfl
  | succ size ih => exact ih

theorem startThreads_replicate (started size : Nat) :
    startThreads started (List.replicate size none)
      = .ok ((List.range' started size).map some, started + size) := by
  induction size generalizing started with
  | zero => rfl
  | succ size ih =>
    rw [List.replicate_succ, startThreads, ih (started + 1), List.range'_succ, List.map_cons,
      Nat.add_right_comm started 1 size]
    rfl

theorem joinThreads_map (threads : List Nat) : joinThreads (threads.map some) = .ok threads := by
  induction threads with
  | nil => rfl
  | cons thread threads ih =>
    rw [List.map_cons, joinThreads, ih]
    rfl

theorem resizeThreads_length (threads : List (Option Nat)) : resizeThreads threads threads.length = .ok threads := by
  rw [resizeThreads, List.drop_length, List.take_length, Nat.sub_self, List.replicate_zero, List.append_nil]
  rfl

theorem resizeThreads_nil (size : Nat) : resizeThreads [] size = .ok (List.replicate size none) := by
  rw [resizeThreads, List.drop_nil, List.take_nil, List.nil_append, List.length_nil, Nat.sub_zero]
  rfl

/-! ### Phases -/

/-- Where a server is that has threads to start. -/
inductive Phase where
  | idle
  | running
  | stopped

/-- What a server can be told to do. -/
def Phase.step : Phase → ServerCall → Option Phase
  | phase, .start (some _) => some phase
  | .idle, .start none => some .running
  | .idle, .stop => some .idle
  | .running, .start none => none
  | .running, .stop => some .stopped
  | .stopped, .start none => some .running
  | .stopped, .stop => none

/-- No objects, an object with a thread for each one to start, or as many objects without. -/
def Objects (size : Nat) (threads : List (Option Nat)) : Phase → Prop
  | .idle => threads = []
  | .running => ∃ ids : List Nat, threads = ids.map some ∧ ids.length = size
  | .stopped => threads = List.replicate size none

/-- Every thread there was has been joined, or can be. -/
structure InPhase (numThreads : UInt32) (s : ServerBase) (phase : Phase) : Prop where
  numThreads_eq : s.numThreads = numThreads
  objects : Objects numThreads.toNat s.threads phase
  accounted : ∀ thread < s.started, thread ∈ s.joined ∨ some thread ∈ s.threads

variable {numThreads : UInt32}

theorem inPhase_initial : InPhase numThreads { numThreads := numThreads } .idle where
  numThreads_eq := rfl
  objects := rfl
  accounted thread h := absurd h (Nat.not_lt_zero thread)

theorem start_eq {s : ServerBase} {size : Nat}
    (h : resizeThreads s.threads s.numThreads.toNat = .ok (List.replicate size none)) :
    s.start none = .ok { s with
      threads := (List.range' s.started size).map some
      started := s.started + size } := by
  unfold start
  simp only [init, Option.elim_none]
  rw [h]
  simp only [bind, Except.bind, startThreads_replicate, pure, Except.pure]

theorem stop_eq {s : ServerBase} {ids : List Nat} (h : s.threads = ids.map some) :
    s.stop = .ok { s with threads := List.replicate ids.length none, joined := s.joined ++ ids } := by
  unfold stop
  rw [if_pos (show close = true from rfl), h, joinThreads_map]
  simp only [bind, Except.bind, pure, Except.pure, List.map_map, Function.comp_def, List.map_const']

theorem InPhase.start {s : ServerBase} {phase : Phase} (h : InPhase numThreads s phase)
    (hresize : resizeThreads s.threads numThreads.toNat = .ok (List.replicate numThreads.toNat none))
    (hnone : ∀ thread, some thread ∉ s.threads) :
    ∃ s', s.call (.start none) = .ok s' ∧ InPhase numThreads s' .running := by
  rw [← h.numThreads_eq] at hresize
  refine ⟨_, start_eq hresize, h.numThreads_eq, ⟨_, rfl, ?_⟩, ?_⟩
  · rw [List.length_range', h.numThreads_eq]
  · intro thread hlt
    have hlt' : thread < s.started + s.numThreads.toNat := hlt
    rcases Nat.lt_or_ge thread s.started with hbefore | hafter
    · exact Or.inl ((h.accounted thread hbefore).resolve_right (hnone thread))
    · refine Or.inr (List.mem_map.mpr ⟨thread, ?_, rfl⟩)
      rw [List.mem_range'_1]
      omega

theorem InPhase.stop {s : ServerBase} {phase phase' : Phase} (h : InPhase numThreads s phase) {ids : List Nat}
    (hthreads : s.threads = ids.map some)
    (hobjects : Objects numThreads.toNat (List.replicate ids.length none) phase') :
    ∃ s', s.call .stop = .ok s' ∧ InPhase numThreads s' phase' := by
  refine ⟨_, stop_eq hthreads, h.numThreads_eq, hobjects, ?_⟩
  intro thread hlt
  refine Or.inl (List.mem_append.mpr ((h.accounted thread hlt).imp id ?_))
  rw [hthreads]
  intro hmem
  obtain ⟨thread', hmem', heq⟩ := List.mem_map.mp hmem
  rwa [← Option.some.inj heq]

theorem InPhase.call {s : ServerBase} {phase phase' : Phase} (h : InPhase numThreads s phase) {c : ServerCall}
    (hstep : phase.step c = some phase') : ∃ s', s.call c = .ok s' ∧ InPhase numThreads s' phase' := by
  cases c with
  | start throws =>
    cases throws with
    | some what =>
      have heq : phase = phase' := by
        cases phase <;> exact Option.some.inj hstep
      exact ⟨s, rfl, heq ▸ h⟩
    | none =>
      cases phase with
      | idle =>
        cases hstep
        have hthreads : s.threads = [] := h.objects
        refine h.start ?_ (by simp [hthreads])
        rw [hthreads, resizeThreads_nil]
      | running => cases hstep
      | stopped =>
        cases hstep
        have hthreads : s.threads = List.replicate numThreads.toNat none := h.objects
        refine h.start ?_ (by simp [hthreads])
        have hresize := resizeThreads_length (List.replicate numThreads.toNat none)
        rw [List.length_replicate] at hresize
        rw [hthreads, hresize]
  | stop =>
    cases phase with
    | idle =>
      cases hstep
      have hthreads : s.threads = ([] : List Nat).map some := h.objects
      exact h.stop hthreads rfl
    | running =>
      cases hstep
      obtain ⟨ids, hthreads, hlength⟩ := h.objects
      exact h.stop hthreads (by rw [hlength]; rfl)
    | stopped => cases hstep

theorem InPhase.start_error {s : ServerBase} (h : InPhase numThreads s .running) (hpos : 0 < numThreads.toNat) :
    s.start none = .error .overwritten := by
  obtain ⟨ids, hthreads, hlength⟩ := h.objects
  obtain ⟨id, ids, rfl⟩ := List.exists_cons_of_length_pos (hlength ▸ hpos)
  have hresize := resizeThreads_length s.threads
  rw [hthreads, List.length_map, hlength, ← h.numThreads_eq] at hresize
  unfold ServerBase.start
  simp only [init, Option.elim_none]
  rw [hthreads, hresize]
  rfl

theorem InPhase.stop_error {s : ServerBase} (h : InPhase numThreads s .stopped) (hpos : 0 < numThreads.toNat) :
    s.stop = .error .notJoinable := by
  have hthreads : s.threads = List.replicate numThreads.toNat none := h.objects
  obtain ⟨size, hsize⟩ := Nat.exists_eq_add_one_of_ne_zero (Nat.ne_of_gt hpos)
  unfold ServerBase.stop
  rw [if_pos (show close = true from rfl), hthreads, hsize, List.replicate_succ]
  rfl

/-- A server with threads does what its phase allows, and anything else ends the program. -/
theorem refines_step (hpos : 0 < numThreads.toNat) : Runs.Refines call Phase.step (InPhase numThreads) where
  step h hstep := h.call hstep
  stuck := by
    intro s phase c h hstep
    cases phase with
    | idle =>
      cases c with
      | start throws => cases throws <;> cases hstep
      | stop => cases hstep
    | running =>
      cases c with
      | start throws =>
        cases throws with
        | none => exact ⟨_, h.start_error hpos⟩
        | some what => cases hstep
      | stop => cases hstep
    | stopped =>
      cases c with
      | start throws => cases throws <;> cases hstep
      | stop => exact ⟨_, h.stop_error hpos⟩

theorem life_eq (numThreads : UInt32) (calls : List ServerCall) :
    life numThreads calls = (do
      let s ← (calls ++ [ServerCall.stop]).foldlM call { numThreads := numThreads }
      destroyThreads s.threads
      return s) := by
  rw [List.foldlM_append]
  unfold life destroy
  cases calls.foldlM call { numThreads := numThreads } with
  | error fault => rfl
  | ok s =>
    simp only [bind, Except.bind, List.foldlM_cons, List.foldlM_nil, call, pure, Except.pure]
    cases s.stop <;> rfl

theorem Phase.step_stop_ne {phase phase' : Phase} (h : phase.step .stop = some phase') : phase' ≠ .running := by
  rintro rfl
  cases phase <;> cases h

theorem InPhase.destroy {s : ServerBase} {phase : Phase} (h : InPhase numThreads s phase)
    (hphase : phase ≠ .running) :
    destroyThreads s.threads = .ok () ∧ ∀ thread < s.started, thread ∈ s.joined := by
  obtain ⟨size, hthreads⟩ : ∃ size, s.threads = List.replicate size none := by
    cases phase with
    | idle => exact ⟨0, h.objects⟩
    | running => exact absurd rfl hphase
    | stopped => exact ⟨_, h.objects⟩
  refine ⟨by rw [hthreads, destroyThreads_replicate], ?_⟩
  intro thread hlt
  exact (h.accounted thread hlt).resolve_right (by simp [hthreads])

theorem safe_iff_phases (hpos : 0 < numThreads.toNat) (calls : List ServerCall) :
    Safe numThreads calls ↔ ∃ phase, (calls ++ [ServerCall.stop]).foldlM Phase.step .idle = some phase := by
  have hrefines := refines_step hpos
  unfold Safe
  rw [life_eq]
  constructor
  · rintro ⟨s, hlife, -⟩
    by_contra hnone
    push Not at hnone
    obtain ⟨fault, hfault⟩ := hrefines.foldlM_none inPhase_initial (Option.eq_none_iff_forall_ne_some.mpr hnone)
    rw [hfault] at hlife
    cases hlife
  · rintro ⟨phase, hphases⟩
    obtain ⟨s, hcalls, hphase⟩ := hrefines.foldlM_some inPhase_initial hphases
    rw [List.foldlM_append] at hphases
    obtain ⟨before, -, hstop⟩ := Option.bind_eq_some_iff.mp hphases
    rw [List.foldlM_cons] at hstop
    obtain ⟨last, hlast, hnil⟩ := Option.bind_eq_some_iff.mp hstop
    obtain ⟨hdestroy, hjoined⟩ := hphase.destroy (Option.some.inj hnil ▸ Phase.step_stop_ne hlast)
    refine ⟨s, ?_, hjoined⟩
    rw [hcalls]
    simp only [bind, Except.bind, hdestroy, pure, Except.pure]

/-! ### Orders of calls -/

/-- Whether a call gets behind `init` and `close`. -/
def comesThrough : ServerCall → Bool
  | .start (some _) => false
  | _ => true

/-- What a start may be followed by. -/
def Followed (after : List ServerCall) : Prop := after = [] ∨ ∃ rest, after = .stop :: .start none :: rest

/-- Of the calls that come through, a start is the last, or one stop follows it and then a start. -/
def Orderly (calls : List ServerCall) : Prop :=
  ∀ before after, calls.filter comesThrough = before ++ .start none :: after → Followed after

theorem orderly_cons_stop (calls : List ServerCall) : Orderly (.stop :: calls) ↔ Orderly calls := by
  unfold Orderly
  rw [List.filter_cons_of_pos rfl]
  constructor
  · intro h before after heq
    exact h (.stop :: before) after (by rw [heq]; rfl)
  · intro h before after heq
    cases before with
    | nil => cases heq
    | cons first before => exact h before after (List.cons.inj heq).2

theorem orderly_cons_start (calls : List ServerCall) :
    Orderly (.start none :: calls) ↔ Followed (calls.filter comesThrough) ∧ Orderly calls := by
  unfold Orderly
  rw [List.filter_cons_of_pos rfl]
  constructor
  · intro h
    refine ⟨h [] _ rfl, fun before after heq => ?_⟩
    exact h (.start none :: before) after (by rw [heq]; rfl)
  · rintro ⟨hfollowed, h⟩ before after heq
    cases before with
    | nil => rwa [← (List.cons.inj heq).2]
    | cons first before => exact h before after (List.cons.inj heq).2

/-- What has to come next in a phase. -/
def Phase.Continues (calls : List ServerCall) : Phase → Prop
  | .idle => True
  | .running => Followed calls
  | .stopped => ∃ rest, calls = .start none :: rest

/-- The calls have phases if and only if they continue the first of them, and every start is followed right. -/
theorem phases_iff (calls : List ServerCall) (phase : Phase) :
    (∃ last, (calls ++ [ServerCall.stop]).foldlM Phase.step phase = some last) ↔
      phase.Continues (calls.filter comesThrough) ∧ Orderly calls := by
  induction calls generalizing phase with
  | nil =>
    have horderly : Orderly [] := fun before after heq => by simp at heq
    cases phase with
    | idle => exact iff_of_true ⟨.idle, rfl⟩ ⟨trivial, horderly⟩
    | running => exact iff_of_true ⟨.stopped, rfl⟩ ⟨Or.inl rfl, horderly⟩
    | stopped =>
      refine iff_of_false ?_ ?_
      · rintro ⟨last, hlast⟩
        cases hlast
      · rintro ⟨⟨rest, hrest⟩, -⟩
        cases hrest
  | cons c calls ih =>
    rw [List.cons_append]
    simp only [List.foldlM_cons]
    cases c with
    | start throws =>
      cases throws with
      | some what =>
        have hstep : phase.step (.start (some what)) = some phase := by
          cases phase <;> rfl
        have hfilter : (ServerCall.start (some what) :: calls).filter comesThrough = calls.filter comesThrough :=
          List.filter_cons_of_neg (by simp [comesThrough])
        rw [hstep]
        unfold Orderly at ih ⊢
        rw [hfilter]
        exact ih phase
      | none =>
        rw [orderly_cons_start, List.filter_cons_of_pos rfl]
        cases phase with
        | idle =>
          have hcontinues : Phase.Continues (.start none :: calls.filter comesThrough) .idle := trivial
          simp only [hcontinues, true_and]
          exact ih .running
        | running =>
          refine iff_of_false ?_ ?_
          · rintro ⟨last, hlast⟩
            cases hlast
          · rintro ⟨hnext, -⟩
            simp [Phase.Continues, Followed] at hnext
        | stopped =>
          have hcontinues : Phase.Continues (.start none :: calls.filter comesThrough) .stopped := ⟨_, rfl⟩
          simp only [hcontinues, true_and]
          exact ih .running
    | stop =>
      rw [orderly_cons_stop, List.filter_cons_of_pos rfl]
      cases phase with
      | idle => exact ih .idle
      | running =>
        have hcontinues : Phase.Continues (.stop :: calls.filter comesThrough) .running ↔
            Phase.Continues (calls.filter comesThrough) .stopped := by
          simp [Phase.Continues, Followed]
        rw [hcontinues]
        exact ih .stopped
      | stopped =>
        refine iff_of_false ?_ ?_
        · rintro ⟨last, hlast⟩
          cases hlast
        · rintro ⟨⟨rest, hrest⟩, -⟩
          cases hrest

/-! ### Lives -/

theorem safe_zero (calls : List ServerCall) : Safe 0 calls := by
  have hcall : ∀ c, call { numThreads := 0 } c = .ok { numThreads := 0 } := by
    intro c
    cases c with
    | start throws => cases throws <;> rfl
    | stop => rfl
  have hfold : calls.foldlM call { numThreads := 0 } = .ok { numThreads := 0 } := by
    induction calls with
    | nil => rfl
    | cons c calls ih =>
      rw [List.foldlM_cons, hcall]
      exact ih
  refine ⟨{ numThreads := 0 }, ?_, fun thread hlt => absurd hlt (Nat.not_lt_zero thread)⟩
  unfold life
  rw [hfold]
  rfl

/-- A life is safe if and only if there are no threads to start, or every start that comes through is the last call,
or is followed by one stop and then by a start. -/
theorem safe_iff (numThreads : UInt32) (calls : List ServerCall) :
    Safe numThreads calls ↔ numThreads = 0 ∨ Orderly calls := by
  by_cases hzero : numThreads = 0
  · rw [hzero]
    exact iff_of_true (safe_zero calls) (Or.inl rfl)
  · have hpos : 0 < numThreads.toNat := Nat.pos_of_ne_zero fun h => hzero (UInt32.toNat_inj.mp h)
    rw [safe_iff_phases hpos, phases_iff, or_iff_right hzero]
    exact and_iff_right trivial

/-- The destructor joins once more what an explicit stop has joined. -/
theorem not_safe_stopped :
    life 4 [.start none, .stop] = .error .notJoinable ∧ ¬ Safe 4 [.start none, .stop] := by
  have hlife : life 4 [.start none, .stop] = .error .notJoinable := rfl
  refine ⟨hlife, ?_⟩
  rintro ⟨s, hs, -⟩
  rw [hlife] at hs
  cases hs

end ServerBase

end OmxDb
