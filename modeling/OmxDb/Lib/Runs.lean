import Mathlib.Data.List.Basic
import Mathlib.Order.WellFounded

/-!
# Runs of a deterministic machine

A machine is a step function on states, driven by events. A run is a list of events; `Meets cond` says
that every step of a run satisfies a condition on the state before it and the event. `run_inv` is the
invariant rule: an invariant that every conforming step keeps holds at the end of every conforming run. A machine with
faults `Refines` a partial one, which says what is allowed, if it has a fault exactly where nothing is allowed. A
machine `Follows` another if its events can take it along with every step of the other. A partial machine whose ordinary
events bring a measure down (`Descends`) comes to rest.
-/

namespace Runs

variable {σ ε : Type*} (step : σ → ε → σ)

/-- The state after the events. -/
def run (s : σ) (events : List ε) : σ := events.foldl step s

/-- Every step of the run satisfies the condition on its source state and its event. -/
def Meets (cond : σ → ε → Prop) : σ → List ε → Prop
  | _, [] => True
  | s, event :: events => cond s event ∧ Meets cond (step s event) events

instance (cond : σ → ε → Prop) [∀ s event, Decidable (cond s event)] :
    (s : σ) → (events : List ε) → Decidable (Meets step cond s events)
  | _, [] => inferInstanceAs (Decidable True)
  | s, event :: events =>
    haveI := instDecidableMeets cond (step s event) events
    inferInstanceAs (Decidable (cond s event ∧ Meets step cond (step s event) events))

variable {step}

@[simp] theorem run_nil (s : σ) : run step s [] = s := rfl

@[simp] theorem run_cons (s : σ) (event : ε) (events : List ε) :
    run step s (event :: events) = run step (step s event) events := rfl

theorem run_append (s : σ) (left right : List ε) :
    run step s (left ++ right) = run step (run step s left) right :=
  List.foldl_append

theorem Meets.mono {cond cond' : σ → ε → Prop} (h : ∀ s event, cond s event → cond' s event)
    {s : σ} {events : List ε} (hmeets : Meets step cond s events) : Meets step cond' s events := by
  induction events generalizing s with
  | nil => trivial
  | cons event events ih => exact ⟨h s event hmeets.1, ih hmeets.2⟩

theorem Meets.of_forall (step : σ → ε → σ) {cond : ε → Prop} (s : σ) {events : List ε}
    (h : ∀ event ∈ events, cond event) :
    Meets step (fun _ event => cond event) s events := by
  induction events generalizing s with
  | nil => trivial
  | cons event events ih =>
    exact ⟨h event (by simp), ih _ fun event' hmem => h event' (List.mem_cons_of_mem _ hmem)⟩

theorem Meets.and {cond cond' : σ → ε → Prop} {s : σ} {events : List ε}
    (h : Meets step cond s events) (h' : Meets step cond' s events) :
    Meets step (fun s event => cond s event ∧ cond' s event) s events := by
  induction events generalizing s with
  | nil => trivial
  | cons event events ih => exact ⟨⟨h.1, h'.1⟩, ih h.2 h'.2⟩

/-- The invariant rule. -/
theorem run_inv {cond : σ → ε → Prop} (inv : σ → Prop)
    (hstep : ∀ s event, inv s → cond s event → inv (step s event))
    {s : σ} {events : List ε} (hmeets : Meets step cond s events) (hinv : inv s) :
    inv (run step s events) := by
  induction events generalizing s with
  | nil => exact hinv
  | cons event events ih => exact ih hmeets.2 (hstep s event hinv hmeets.1)

/-- Under an invariant that conforming steps keep, a conforming run satisfies at every step whatever the
invariant and the condition give for one step. -/
theorem Meets.of_inv {cond concl : σ → ε → Prop} (inv : σ → Prop)
    (hstep : ∀ s event, inv s → cond s event → inv (step s event))
    (hconcl : ∀ s event, inv s → cond s event → concl s event)
    {s : σ} {events : List ε} (hmeets : Meets step cond s events) (hinv : inv s) :
    Meets step concl s events := by
  induction events generalizing s with
  | nil => trivial
  | cons event events ih =>
    exact ⟨hconcl s event hinv hmeets.1, ih hmeets.2 (hstep s event hinv hmeets.1)⟩

/-! ### Machines with faults -/

variable {τ φ : Type*}

/-- Every event meets the condition in the state where it happens, up to the first fault. -/
def MeetsFaulty (faulty : σ → ε → Except φ σ) (cond : σ → ε → Prop) : σ → List ε → Prop
  | _, [] => True
  | s, event :: events => cond s event ∧ ∀ s', faulty s event = .ok s' → MeetsFaulty faulty cond s' events

theorem foldlM_inv {faulty : σ → ε → Except φ σ} {cond : σ → ε → Prop} (inv : σ → Prop)
    (hstep : ∀ s event s', inv s → cond s event → faulty s event = .ok s' → inv s') {s s' : σ} {events : List ε}
    (hmeets : MeetsFaulty faulty cond s events) (hinv : inv s) (hrun : events.foldlM faulty s = .ok s') : inv s' := by
  induction events generalizing s with
  | nil => exact Except.ok.inj hrun ▸ hinv
  | cons event events ih =>
    obtain ⟨hcond, hrest⟩ := hmeets
    rw [List.foldlM_cons] at hrun
    cases hnext : faulty s event with
    | error fault =>
      rw [hnext] at hrun
      cases hrun
    | ok next =>
      rw [hnext] at hrun
      exact ih (hrest next hnext) (hstep s event next hinv hcond hnext) hrun

theorem MeetsFaulty.of_forall {faulty : σ → ε → Except φ σ} {cond : σ → ε → Prop} (h : ∀ s event, cond s event) (s : σ)
    (events : List ε) : MeetsFaulty faulty cond s events := by
  induction events generalizing s with
  | nil => trivial
  | cons event events ih => exact ⟨h s event, fun s' _ => ih s'⟩

/-- Related states stay related where `allowed` has a step, and `faulty` has a fault where it has none. -/
structure Refines (faulty : σ → ε → Except φ σ) (allowed : τ → ε → Option τ) (rel : σ → τ → Prop) : Prop where
  step : ∀ {s t t' event}, rel s t → allowed t event = some t' → ∃ s', faulty s event = .ok s' ∧ rel s' t'
  stuck : ∀ {s t event}, rel s t → allowed t event = none → ∃ fault, faulty s event = .error fault

namespace Refines

variable {faulty : σ → ε → Except φ σ} {allowed : τ → ε → Option τ} {rel : σ → τ → Prop}
  (h : Refines faulty allowed rel)
include h

theorem foldlM_some {s : σ} {t t' : τ} (hrel : rel s t) {events : List ε}
    (hallowed : events.foldlM allowed t = some t') : ∃ s', events.foldlM faulty s = .ok s' ∧ rel s' t' := by
  induction events generalizing s t with
  | nil => exact ⟨s, rfl, Option.some.inj hallowed ▸ hrel⟩
  | cons event events ih =>
    rw [List.foldlM_cons] at hallowed
    obtain ⟨next, hnext, hrest⟩ := Option.bind_eq_some_iff.mp hallowed
    obtain ⟨s', hs', hrel'⟩ := h.step hrel hnext
    rw [List.foldlM_cons, hs']
    exact ih hrel' hrest

theorem foldlM_none {s : σ} {t : τ} (hrel : rel s t) {events : List ε} (hnone : events.foldlM allowed t = none) :
    ∃ fault, events.foldlM faulty s = .error fault := by
  induction events generalizing s t with
  | nil => cases hnone
  | cons event events ih =>
    rw [List.foldlM_cons] at hnone ⊢
    cases hnext : allowed t event with
    | none =>
      obtain ⟨fault, hfault⟩ := h.stuck hrel hnext
      exact ⟨fault, by rw [hfault]; rfl⟩
    | some next =>
      obtain ⟨s', hs', hrel'⟩ := h.step hrel hnext
      rw [hnext] at hnone
      rw [hs']
      exact ih hrel' hnone

end Refines

/-! ### Machines that follow others -/

variable {ζ : Type*}

/-- Under an invariant, whatever step a machine makes, some events take the other to a related state again. -/
structure Follows (possible : σ → ε → Option σ) (next : τ → ζ → τ) (inv : σ → Prop) (rel : σ → τ → Prop) : Prop where
  keeps : ∀ {s s' event}, inv s → possible s event = some s' → inv s'
  step : ∀ {s s' t event}, inv s → rel s t → possible s event = some s' → ∃ events, rel s' (run next t events)

theorem Follows.exists_run {possible : σ → ε → Option σ} {next : τ → ζ → τ} {inv : σ → Prop} {rel : σ → τ → Prop}
    (h : Follows possible next inv rel) {s : σ} {t : τ} (hinv : inv s) (hrel : rel s t) (events : List ε) :
    ∃ events', rel (run (fun s event => (possible s event).getD s) s events) (run next t events') := by
  induction events generalizing s t with
  | nil => exact ⟨[], hrel⟩
  | cons event events ih =>
    rw [run_cons]
    cases hstep : possible s event with
    | none => exact ih hinv hrel
    | some s' =>
      obtain ⟨first, hfirst⟩ := h.step hinv hrel hstep
      obtain ⟨rest, hrest⟩ := ih (h.keeps hinv hstep) hfirst
      refine ⟨first ++ rest, ?_⟩
      rw [run_append]
      exact hrest

/-! ### Coming to rest -/

variable {β : Type*}

/-- Under an invariant, every ordinary event that is possible brings the measure down. -/
structure Descends (possible : σ → ε → Option σ) (ordinary : ε → Prop) (inv : σ → Prop) (lt : β → β → Prop)
    (measure : σ → β) : Prop where
  wf : WellFounded lt
  step : ∀ {s s' event}, inv s → ordinary event → possible s event = some s' → inv s' ∧ lt (measure s') (measure s)

namespace Descends

variable {possible : σ → ε → Option σ} {ordinary : ε → Prop} {inv : σ → Prop} {lt : β → β → Prop} {measure : σ → β}
  (h : Descends possible ordinary inv lt measure)
include h

/-- Some ordinary events lead to a state in which none is possible. -/
theorem exists_rest {s : σ} (hinv : inv s) : ∃ events, (∀ event ∈ events, ordinary event) ∧
    ∀ event, ordinary event → possible (run (fun s event => (possible s event).getD s) s events) event = none := by
  induction hmeasure : measure s using h.wf.induction generalizing s with
  | h b ih =>
    by_cases hrest : ∀ event, ordinary event → possible s event = none
    · exact ⟨[], by simp, hrest⟩
    · push Not at hrest
      obtain ⟨event, hordinary, hpossible⟩ := hrest
      obtain ⟨s', hstep⟩ := Option.ne_none_iff_exists'.mp hpossible
      obtain ⟨hinv', hless⟩ := h.step hinv hordinary hstep
      rw [hmeasure] at hless
      obtain ⟨events, hevents, hrest⟩ := ih _ hless hinv' rfl
      refine ⟨event :: events, List.forall_mem_cons.mpr ⟨hordinary, hevents⟩, ?_⟩
      rw [run_cons, hstep]
      exact hrest

/-- No schedule of ordinary events is possible for ever. -/
theorem exists_impossible {s : σ} (hinv : inv s) (schedule : ℕ → ε) (hschedule : ∀ n, ordinary (schedule n)) :
    ∃ n, possible (run (fun s event => (possible s event).getD s) s ((List.range n).map schedule)) (schedule n)
      = none := by
  induction hmeasure : measure s using h.wf.induction generalizing s schedule with
  | h b ih =>
    cases hstep : possible s (schedule 0) with
    | none => exact ⟨0, hstep⟩
    | some s' =>
      obtain ⟨hinv', hless⟩ := h.step hinv (hschedule 0) hstep
      rw [hmeasure] at hless
      obtain ⟨n, hn⟩ := ih _ hless hinv' (fun n => schedule (n + 1)) (fun n => hschedule (n + 1)) rfl
      refine ⟨n + 1, ?_⟩
      rw [List.range_succ_eq_map, List.map_cons, run_cons, hstep, List.map_map]
      exact hn

end Descends

end Runs
