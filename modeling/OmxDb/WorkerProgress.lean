import OmxDb.WorkerRuns
import OmxDb.WriteOrder

/-!
# Every client is answered

Whatever the threads do next leaves less to do, so finitely many threads and clients come to rest. A thread waits only
for a put that holds the lock, and such a put has a turn; so at rest no thread has a job, every request that a session
has read was taken, and without socket errors every client has its response.
-/

namespace OmxDb

namespace Networking

open StorageEngine Histories Linearization

variable {Tid Cid : Type*}

/-! ### Less to do -/

/-- A thread is in a call exactly while it has a job without an answer. -/
def Workers.JobsRun (s : Workers Tid Cid) : Prop :=
  ∀ t, s.system.running t = .idle ↔ ∀ job, s.jobs t = some job → job.answer ≠ none

/-- A socket error, or a resolver that throws. -/
def WorkerEvent.isError : WorkerEvent Tid Cid → Bool
  | .connection _ event => event.isError
  | _ => false

/-- Bytes behind a frame. -/
def WorkerEvent.isFollow : WorkerEvent Tid Cid → Bool
  | .connection _ event => event.isFollow
  | _ => false

/-- For what is to come. -/
def missing {α : Type*} : Option α → Nat
  | none => 1
  | some _ => 0

/-- For what is there. -/
def present {α : Type*} : Option α → Nat
  | none => 0
  | some _ => 1

/-- The clients no thread was called for, the process and the jobs, what the connections have left, and what the calls
have left. -/
def Workers.left [Fintype Tid] [Fintype Cid] (P : Platform) (s : Workers Tid Cid) : ℕ ×ₗ ℕ ×ₗ ℕ ×ₗ ℕ ×ₗ ℕ ×ₗ ℕ :=
  toLex (∑ c, missing (s.called c),
    toLex (s.alive.toNat + ∑ t, present (s.jobs t),
      toLex (∑ c, (s.connections c).handlersLeft,
        toLex (∑ c, (s.connections c).bytesLeft,
          toLex (∑ t, (s.system.running t).rank, ∑ t, (s.system.running t).turnsLeft P)))))

section left

variable [DecidableEq Tid] [DecidableEq Cid] {P : Platform} {w : Demand Cid} {s s' : Workers Tid Cid} {t : Tid}
  {c : Cid}

omit [DecidableEq Cid] in
theorem Workers.JobsRun.turn (h : s.JobsRun) {job : Job Cid} (hbusy : s.system.running t ≠ .idle)
    (hfree : ((s.system.running t).wantsLock && s.system.writer.isSome) = false) : (s.turn P t job).JobsRun := by
  obtain ⟨running, entries, hrun, hhistory, hcases⟩ := advance_cases (P := P) hbusy hfree
  intro t'
  show (s.system.advance P t).running t' = .idle ↔ ∀ job', Function.update s.jobs t _ t' = some job' → _
  by_cases hne : t' = t
  · subst hne
    rw [hrun, hhistory, Function.update_self, Function.update_self, List.drop_left]
    rcases hcases with ⟨hrunning, hinserts⟩ | ⟨rfl, entry, answer, rfl, hanswer⟩
    · refine iff_of_false hrunning ?_
      intro hanswered
      apply hanswered _ rfl
      rw [List.findSome?_eq_none_iff]
      intro x hx
      obtain ⟨entry, hentry, rfl⟩ := List.mem_map.mp hx
      have hinsert := hinserts entry hentry
      cases entry <;> first | rfl | cases hinsert
    · refine iff_of_true rfl ?_
      rintro job' ⟨⟩
      simp [hanswer]
  · rw [hrun, Function.update_of_ne hne, Function.update_of_ne hne]
    exact h t'

theorem Workers.JobsRun.take (h : s.JobsRun) (hfree : s.jobs t = none) (request : Request) (asked : Asked) :
    (s.take P t c request asked).JobsRun := by
  have hidle : s.system.running t = .idle := (h t).mpr fun job hjob => by rw [hfree] at hjob; cases hjob
  obtain ⟨begun, running, -, hrunning, -, hrun⟩ := step_action (P := P) hidle asked
  intro t'
  show (s.system.step P (asked.action t)).running t' = .idle ↔ ∀ job', Function.update s.jobs t _ t' = some job' → _
  rw [hrun]
  by_cases hne : t' = t
  · subst hne
    rw [Function.update_self, Function.update_self]
    exact iff_of_false hrunning fun hanswered => hanswered _ rfl rfl
  · rw [Function.update_of_ne hne, Function.update_of_ne hne]
    exact h t'

theorem Workers.JobsRun.finish (h : s.JobsRun) {job : Job Cid} {answer : Answer} (hjob : s.jobs t = some job)
    (hanswer : job.answer = some answer) : (s.finish t job answer).JobsRun := by
  intro t'
  show s.system.running t' = .idle ↔ ∀ job', Function.update s.jobs t none t' = some job' → _
  by_cases hne : t' = t
  · subst hne
    rw [Function.update_self]
    refine iff_of_true ((h t').mpr ?_) (fun job' hjob' => by cases hjob')
    intro job' hjob'
    rw [hjob] at hjob'
    cases hjob'
    rw [hanswer]
    exact Option.some_ne_none answer
  · rw [Function.update_of_ne hne]
    exact h t'

theorem Workers.JobsRun.step (h : s.JobsRun) {event : WorkerEvent Tid Cid} (hstep : s.step P w event = some s') :
    s'.JobsRun := by
  cases Workers.step_cases hstep with
  | connection hserve hserver hnetwork => exact h
  | unparsed halive hready hparse => exact h
  | @take t c request asked hfree hnone hready hparse hasked => exact h.take hfree _ asked
  | @advance t job hjob hanswer hlock => exact h.turn (fun hidle => (h t).mp hidle job hjob hanswer) hlock
  | respond hjob hanswer halive => exact h.finish hjob hanswer

theorem Workers.step_decreases [Fintype Tid] [Fintype Cid] (h : s.JobsRun) {event : WorkerEvent Tid Cid}
    (herror : event.isError = false) (hfollow : event.isFollow = false) (hstep : s.step P w event = some s') :
    s'.left P < s.left P := by
  unfold Workers.left
  simp only [Prod.Lex.toLex_lt_toLex]
  cases Workers.step_cases hstep with
  | connection hserve hserver hn =>
    refine Or.inr ⟨rfl, Or.inr ⟨rfl, ?_⟩⟩
    rcases step_decreases herror hfollow hn with hhandlers | ⟨heq, hbytes⟩
    · exact Or.inl (sum_update_lt hhandlers)
    · exact Or.inr ⟨sum_update_eq heq, Or.inl (sum_update_lt hbytes)⟩
  | unparsed halive hready hparse =>
    refine Or.inr ⟨rfl, Or.inl ?_⟩
    rw [halive]
    exact Nat.add_lt_add_right Nat.zero_lt_one _
  | take hfree hnone hready hparse hasked =>
    refine Or.inl (sum_update_lt ?_)
    rw [hnone]
    exact Nat.zero_lt_one
  | @advance t job hjob hanswer hlock =>
    have hbusy : s.system.running t ≠ .idle := fun hidle => (h t).mp hidle job hjob hanswer
    refine Or.inr ⟨rfl, Or.inr ⟨?_, Or.inr ⟨rfl, Or.inr ⟨rfl, ?_⟩⟩⟩⟩
    · show s.alive.toNat + ∑ t', present (Function.update s.jobs t _ t') = _
      rw [sum_update_eq]
      rw [hjob]
      rfl
    · obtain ⟨turn, hturn, -⟩ := turn_cases P s.system.store hbusy
      have hrun : (s.turn P t job).system.running = Function.update s.system.running t turn.running := by
        show (s.system.advance P t).running = _
        unfold System.advance
        rw [hlock, hturn]
        rfl
      rw [hrun]
      rcases turn_decreases P s.system.store hturn with hrank | ⟨heq, hless⟩
      · exact Or.inl (sum_update_lt hrank)
      · exact Or.inr ⟨sum_update_eq heq, sum_update_lt hless⟩
  | @respond t job answer hjob hanswer halive =>
    refine Or.inr ⟨rfl, Or.inl ?_⟩
    rw [halive]
    apply Nat.add_lt_add_of_le_of_lt (Bool.toNat_le _)
    apply sum_update_lt
    rw [hjob]
    exact Nat.zero_lt_one

omit [DecidableEq Tid] [DecidableEq Cid] in
theorem Workers.jobsRun_initial (store : Store) : ({ system := { store := store } } : Workers Tid Cid).JobsRun :=
  fun t => iff_of_true rfl fun job hjob => by cases hjob

end left

/-! ### At rest -/

section rest

variable [DecidableEq Tid] [DecidableEq Cid] {P : Platform} {options : Options} {w : Demand Cid}
  {s s' : Workers Tid Cid} {t : Tid} {c : Cid}

/-- Nothing is left to do, neither for a thread nor on a connection. -/
def Workers.AtRest (P : Platform) (w : Demand Cid) (s : Workers Tid Cid) : Prop :=
  ∀ event : WorkerEvent Tid Cid, event.isError = false → event.isFollow = false → s.step P w event = none

theorem Workers.AtRest.jobs (h : s.AtRest P w) (halive : s.alive = true) (hinv : WorkersInv P options w s) (t : Tid) :
    s.jobs t = none := by
  obtain ⟨segs, flushed, hsys⟩ := hinv.engine
  have hunanswered : ∀ t job, s.jobs t = some job → job.answer = none := by
    intro t job hjob
    have hrespond := h (.respond t) rfl rfl
    simp only [Workers.step, hjob, Option.bind_some, halive, if_true] at hrespond
    by_contra hanswer
    obtain ⟨answer, hanswer⟩ := Option.ne_none_iff_exists'.mp hanswer
    rw [hanswer] at hrespond
    cases hrespond
  have hwaits : ∀ t job, s.jobs t = some job →
      (s.system.running t).wantsLock = true ∧ s.system.writer.isSome = true := by
    intro t job hjob
    have hadvance := h (.advance t) rfl rfl
    simp only [Workers.step, hjob, Option.bind_some] at hadvance
    by_contra hfree
    rw [if_pos ⟨halive, hunanswered t job hjob, by rwa [Bool.and_eq_true]⟩] at hadvance
    cases hadvance
  by_contra hsome
  obtain ⟨job, hjob⟩ := Option.ne_none_iff_exists'.mp hsome
  obtain ⟨t', hwriter⟩ := Option.isSome_iff_exists.mp (hwaits t job hjob).2
  -- the writer has a job too, and does not wait
  have hholds := (hsys.holds t').mpr hwriter
  cases hjob' : s.jobs t' with
  | none =>
    rw [hinv.idle t' hjob'] at hholds
    cases hholds
  | some job' =>
    have hwants := (hwaits t' job' hjob').1
    rw [Running.wantsLock_of_holdsLock hholds] at hwants
    cases hwants

omit [DecidableEq Tid] [DecidableEq Cid] in
theorem WorkersInv.not_busy (h : WorkersInv P options w s) (hjobs : ∀ t, s.jobs t = none) (c : Cid) :
    s.busy c = false := by
  unfold Workers.busy
  cases hcalled : s.called c with
  | none => rfl
  | some n =>
    rcases h.ended c n hcalled with ⟨t, job, hjob, -⟩ | ⟨answer, m, -, hhandled⟩
    · rw [hjobs t] at hjob
      cases hjob
    · rw [hhandled]
      rfl

theorem Workers.AtRest.not_ready [Nonempty Tid] (h : s.AtRest P w) (halive : s.alive = true)
    (hinv : WorkersInv P options w s) (c : Cid) : ¬ (s.connections c).server.Ready := by
  intro hready
  have hjobs := h.jobs halive hinv
  obtain ⟨hbuffer, hnil, -⟩ := (hinv.exchange c).buffer_eq (w.lawful c) hready
  have hnone : s.called c = none := by
    by_contra hcalled
    obtain ⟨n, hn⟩ := Option.ne_none_iff_exists'.mp hcalled
    have hfree := hinv.not_busy hjobs c
    unfold Workers.busy at hfree
    rw [hn, hnil] at hfree
    cases hfree
  obtain ⟨t⟩ := ‹Nonempty Tid›
  have hreceived := h (.onRequestReceived t c) rfl rfl
  simp only [Workers.step] at hreceived
  rw [if_pos ⟨halive, by rw [hjobs t]; rfl, by rw [hnone]; rfl, hready⟩, hbuffer, deserialize_request (w.lawful c)]
    at hreceived
  dsimp only at hreceived
  rw [w.asks c] at hreceived
  cases hreceived

theorem Workers.AtRest.connection [Nonempty Tid] (h : s.AtRest P w) (halive : s.alive = true)
    (hinv : WorkersInv P options w s) (c : Cid) : Networking.AtRest P (w.request c) (s.connections c) := by
  intro event herror hfollow
  by_cases hserve : event.handlesRequest = true
  · cases event with
    | onRequestReceived opened store =>
      simp only [Networking.step]
      exact if_neg (h.not_ready halive hinv c)
    | _ => cases hserve
  · have hnone := h (.connection c event) herror hfollow
    rw [Bool.not_eq_true] at hserve
    simpa [Workers.step, hserve, halive, hinv.not_busy (h.jobs halive hinv) c] using hnone

omit [DecidableEq Tid] [DecidableEq Cid] in
theorem Orderly.respond {request : Request} {n : Network} (h : Orderly n) (hnil : n.server.handled = [])
    (result : Except Fault Response) : Orderly (n.respond request result) where
  client hfinished _ := by
    rw [Network.respond_client] at hfinished ⊢
    apply h.client hfinished
    rw [hnil]
    intro call hcall
    cases hcall
  server _ := by
    rw [Network.respond_handled]
    exact List.append_ne_nil_of_right_ne_nil _ (List.cons_ne_nil _ _)

theorem WorkersInv.orderly (h : WorkersInv P options w s) (horderly : ∀ c, Orderly (s.connections c))
    {event : WorkerEvent Tid Cid} (herror : event.isError = false) (hstep : s.step P w event = some s') :
    ∀ c, Orderly (s'.connections c) := by
  cases Workers.step_cases hstep with
  | @connection c event n hserve hserver hn =>
    exact forall_connect (p := fun _ n => Orderly n) ((horderly c).step (w.lawful c) (h.exchange c) herror hn)
      fun c' _ => horderly c'
  | unparsed halive hready hparse => exact horderly
  | take hfree hnone hready hparse hasked => exact horderly
  | advance hjob hanswer hlock => exact horderly
  | @respond t job answer hjob hanswer halive =>
    have hnil := ((h.exchange job.client).buffer_eq (w.lawful _) (h.jobs t job hjob).ready).2.1
    exact forall_connect (p := fun _ n => Orderly n) ((horderly job.client).respond hnil _) fun c' _ => horderly c'

omit [DecidableEq Tid] [DecidableEq Cid] in
theorem WorkersInv.handled_short (h : WorkersInv P options w s) (hhasher : createHasher P options.hashType ≠ none)
    (c : Cid) : ∀ call ∈ (s.connections c).server.handled, Short call.2 := by
  intro call hcall
  cases hcalled : s.called c with
  | none =>
    rw [h.uncalled c hcalled] at hcall
    cases hcall
  | some n =>
    rcases h.ended c n hcalled with ⟨t, job, hjob, rfl⟩ | ⟨answer, m, hreturned, hhandled⟩
    · rw [((h.exchange job.client).buffer_eq (w.lawful _) (h.jobs t job hjob).ready).2.1] at hcall
      cases hcall
    · rw [hhandled, List.mem_singleton] at hcall
      rw [hcall]
      exact h.short hhasher hreturned

end rest

/-- Finitely many threads and clients come to rest from every state: some steps without errors lead there, and no
schedule of such steps goes on for ever. A run without errors that has come to rest has given every client the response
to its request, if there is a thread, puts are ordinary and snapshots fit. Every send is whole, and every request
lawful. -/
theorem workers_come_to_rest [Fintype Tid] [DecidableEq Tid] [Nonempty Tid] [Fintype Cid] [DecidableEq Cid]
    (P : Platform) (options : Options) (disk : Disk) (e : StorageEngine)
    (hopen : StorageEngine.open P {} options {} {} = (disk, .ok e))
    (hhasher : createHasher P options.hashType ≠ none) (w : Demand Cid) (hordinary : w.Ordinary P options)
    (events : List (WorkerEvent Tid Cid))
    (hfits : Runs.Meets (Workers.next P w) TurnsFit { system := { store := ⟨disk, e⟩ } } events) :
    let s := Runs.run (Workers.next P w) { system := { store := ⟨disk, e⟩ } } events
    (∃ more : List (WorkerEvent Tid Cid), (∀ event ∈ more, event.isError = false ∧ event.isFollow = false) ∧
        (Runs.run (Workers.next P w) s more).AtRest P w) ∧
      (∀ schedule : ℕ → WorkerEvent Tid Cid,
        (∀ n, (schedule n).isError = false ∧ (schedule n).isFollow = false) →
        ∃ n, (Runs.run (Workers.next P w) s ((List.range n).map schedule)).step P w (schedule n) = none) ∧
      ((∀ event ∈ events, event.isError = false) → s.AtRest P w →
        ∀ c, Fulfilled (w.request c) (s.connections c)) := by
  intro s
  have hdescends : Runs.Descends (Workers.step P w)
      (fun event : WorkerEvent Tid Cid => event.isError = false ∧ event.isFollow = false) Workers.JobsRun (· < ·)
      (Workers.left P) :=
    ⟨wellFounded_lt, fun h hevent hstep => ⟨h.step hstep, Workers.step_decreases h hevent.1 hevent.2 hstep⟩⟩
  have hjobs : s.JobsRun := by
    refine Runs.run_inv Workers.JobsRun ?_ hfits (Workers.jobsRun_initial ⟨disk, e⟩)
    intro s event h _
    unfold Workers.next
    cases hstep : s.step P w event with
    | none => exact h
    | some s' => exact h.step hstep
  obtain ⟨more, hmore, hrest⟩ := hdescends.exists_rest hjobs
  refine ⟨⟨more, hmore, fun event herror hfollow => hrest event ⟨herror, hfollow⟩⟩,
    fun schedule hschedule => hdescends.exists_impossible hjobs schedule hschedule, ?_⟩
  intro hevents hrest c
  obtain ⟨hinv, halive, horderly⟩ : WorkersInv P options w s ∧ s.alive = true ∧ ∀ c, Orderly (s.connections c) := by
    refine Runs.run_inv (fun s => WorkersInv P options w s ∧ s.alive = true ∧ ∀ c, Orderly (s.connections c)) ?_
      (hfits.and (Runs.Meets.of_forall (Workers.next P w) _ hevents))
      ⟨workersInv_initial hopen, rfl, fun _ => orderly_initial⟩
    rintro s event ⟨hinv, halive, horderly⟩ ⟨hfits, herror⟩
    unfold Workers.next
    cases hstep : s.step P w event with
    | none => exact ⟨hinv, halive, horderly⟩
    | some s' =>
      exact ⟨hinv.step hordinary hfits hstep, hinv.alive hhasher halive hstep, hinv.orderly horderly herror hstep⟩
  exact (horderly c).fulfilled (w.lawful c) (hinv.exchange c) (hrest.connection halive hinv c)
    (hinv.handled_short hhasher c)

theorem Workers.atRest_of_connections [DecidableEq Tid] [DecidableEq Cid] {P : Platform} {w : Demand Cid}
    {s : Workers Tid Cid} (hjobs : ∀ t, (s.jobs t).isNone = true)
    (h : ∀ c, Networking.AtRest P (w.request c) (s.connections c)) : s.AtRest P w := by
  intro event herror hfollow
  cases event with
  | connection c event =>
    simp only [Workers.step]
    rw [h c event herror hfollow, Option.map_none, ite_self]
  | onRequestReceived t c =>
    have hreceived := h c (.onRequestReceived {} ⟨{}, {}⟩) rfl rfl
    simp only [Networking.step] at hreceived
    simp only [Workers.step]
    split_ifs at hreceived with hready
    · split at hreceived <;> cases hreceived
    · exact if_neg fun hcond => hready hcond.2.2.2
  | advance t =>
    simp only [Workers.step]
    rw [Option.isNone_iff_eq_none.mp (hjobs t), Option.bind_none]
  | respond t =>
    simp only [Workers.step]
    rw [Option.isNone_iff_eq_none.mp (hjobs t), Option.bind_none]

theorem workers_come_to_rest_overlapped :
    (Runs.run (Workers.next plainPlatform putAndGetDemand)
        { system := { store := ⟨freshSession.store.disk, freshSession.store.engine⟩ } } overlapped).alive = true ∧
      ∀ c, Fulfilled (putAndGet c) ((Runs.run (Workers.next plainPlatform putAndGetDemand)
        { system := { store := ⟨freshSession.store.disk, freshSession.store.engine⟩ } } overlapped).connections c) := by
  refine ⟨by decide +kernel, (workers_come_to_rest plainPlatform plainOptions freshSession.store.disk
    freshSession.store.engine open_freshSession (by decide) putAndGetDemand ordinary_putAndGetDemand overlapped
    turnsFit_overlapped).2.2 (by decide) ?_⟩
  apply Workers.atRest_of_connections (by decide +kernel)
  intro c
  cases c with
  | false => exact atRest_of_finished (by decide +kernel) (by decide +kernel) (by decide +kernel) (by decide +kernel)
  | true => exact atRest_of_finished (by decide +kernel) (by decide +kernel) (by decide +kernel) (by decide +kernel)

end Networking

end OmxDb
