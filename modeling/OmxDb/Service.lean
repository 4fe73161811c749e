import OmxDb.Exchange
import OmxDb.Lib.Histories

/-!
# Many clients and one server

Any number of clients, each with a connection of its own to one server, whose `io_service` runs on one thread: its
handlers do not overlap, and every `onRequestReceived` calls `Database::handle` on the same store. An exception that
leaves a handler ends the process of the server, and with it all its sessions. The log records when a client is run,
when its request is handled, and when its promise gets a response.

Every connection is one of `Sessions`, with the store as it is when its request is handled, so the invariants of one
exchange hold of each of them (`ServiceInv`).
-/

namespace OmxDb

namespace Networking

open LittleEndian Framing

variable {Cid : Type*}

/-! ### The service -/

/-- The request of each client, as a constructor leaves it, and which output streams open while it is handled. -/
structure Workload (Cid : Type*) where
  request : Cid → Request
  opened : Cid → SnapshotStreams := fun _ => {}
  lawful : ∀ c, (request c).Lawful

/-- An entry of the log. -/
inductive Happening where
  | invoke
  | handle (request : Request) (result : Except Fault Response)
  | answer (response : Response)
deriving DecidableEq

/-- The store, whether the process of the server runs, the connections, and what has happened. -/
structure Service (Cid : Type*) where
  store : Store
  alive : Bool := true
  connections : Cid → Network := fun _ => {}
  log : List (Cid × Happening) := []

/-- A step of a connection, or the handler that reads a request and handles it. -/
inductive ServiceEvent (Cid : Type*) where
  | connection (c : Cid) (event : Event)
  | onRequestReceived (c : Cid)

/-- The handlers and reads of a server session. -/
def Event.ofServer : Event → Bool
  | .accept => true
  | .receiveRequest _ => true
  | .onContentLengthReceived => true
  | .onRequestReceived _ _ => true
  | .onResponseSent => true
  | .serverError => true
  | _ => false

def Event.handlesRequest : Event → Bool
  | .onRequestReceived _ _ => true
  | _ => false

/-- The value of a promise that was set to one. -/
def answerOf : Except String Response → Option Happening
  | .ok response => some (.answer response)
  | .error _ => none

/-- What a step of a connection adds to the log. -/
def recorded (before after : Network) : List Happening :=
  (if before.client.phase = .created ∧ after.client.phase ≠ .created then [.invoke] else []) ++
    (((after.server.handled.drop before.server.handled.length).map fun call => .handle call.1 call.2) ++
      (after.client.promise.drop before.client.promise.length).filterMap answerOf)

/-- The store behind `processRequest`. -/
def storeAfter (P : Platform) (opened : SnapshotStreams) (store : Store) (requestBuffer : List UInt8) : Store :=
  match (Request.make .Get ⟨0⟩ ByteString.empty).deserialize requestBuffer with
  | .error _ => store
  | .ok request => (StorageEngine.handle P opened store request).1

namespace Service

variable [DecidableEq Cid]

/-- A connection makes a step. -/
def advance (s : Service Cid) (c : Cid) (n : Network) : Service Cid :=
  { s with
    connections := Function.update s.connections c n
    log := s.log ++ (recorded (s.connections c) n).map fun happening => (c, happening) }

/-- A step of the service, where it is possible. A handler that does not get to its response ends the server. -/
def step (P : Platform) (w : Workload Cid) (s : Service Cid) : ServiceEvent Cid → Option (Service Cid)
  | .connection c event =>
    if event.handlesRequest || (event.ofServer && !s.alive) then none
    else (Networking.step P (w.request c) (s.connections c) event).map (s.advance c)
  | .onRequestReceived c =>
    if s.alive then
      (Networking.step P (w.request c) (s.connections c) (.onRequestReceived (w.opened c) s.store)).map fun n =>
        { s.advance c n with
          store := storeAfter P (w.opened c) s.store (s.connections c).server.reader.buffer
          alive := decide (n.server.phase = .writing) }
    else none

def next (P : Platform) (w : Workload Cid) (s : Service Cid) (event : ServiceEvent Cid) : Service Cid :=
  (step P w s event).getD s

/-- What a step does. -/
inductive Steps (P : Platform) (w : Workload Cid) (s : Service Cid) : ServiceEvent Cid → Service Cid → Prop where
  | connection {c : Cid} {event : Event} {n : Network} (hserve : event.handlesRequest = false)
      (hserver : event.ofServer = true → s.alive = true)
      (hnetwork : Networking.step P (w.request c) (s.connections c) event = some n) :
      Steps P w s (.connection c event) (s.advance c n)
  | onRequestReceived {c : Cid} {n : Network} (halive : s.alive = true)
      (hnetwork : Networking.step P (w.request c) (s.connections c) (.onRequestReceived (w.opened c) s.store)
        = some n) :
      Steps P w s (.onRequestReceived c) { s.advance c n with
        store := storeAfter P (w.opened c) s.store (s.connections c).server.reader.buffer
        alive := decide (n.server.phase = .writing) }

theorem step_cases {P : Platform} {w : Workload Cid} {s s' : Service Cid} {event : ServiceEvent Cid}
    (hstep : s.step P w event = some s') : Steps P w s event s' := by
  cases event with
  | connection c event =>
    simp only [step] at hstep
    split_ifs at hstep with hcond
    obtain ⟨n, hnetwork, rfl⟩ := Option.map_eq_some_iff.mp hstep
    rw [Bool.or_eq_true, not_or, Bool.not_eq_true] at hcond
    refine .connection hcond.1 ?_ hnetwork
    intro hserver
    simpa [hserver] using hcond.2
  | onRequestReceived c =>
    simp only [step] at hstep
    split_ifs at hstep with halive
    obtain ⟨n, hnetwork, rfl⟩ := Option.map_eq_some_iff.mp hstep
    exact .onRequestReceived halive hnetwork

end Service

/-! ### What a step records -/

section recorded

variable {P : Platform} {request : Request} {n n' : Network} {event : Event}

theorem recorded_eq {results : List (Except String Response)} (hhandled : n'.server.handled = n.server.handled)
    (hpromise : n'.client.promise = n.client.promise ++ results) :
    recorded n n' = (if n.client.phase = .created ∧ n'.client.phase ≠ .created then [.invoke] else [])
      ++ results.filterMap answerOf := by
  unfold recorded
  rw [hhandled, hpromise, List.drop_left, List.drop_length]
  rfl

/-- What a step of a connection adds to the log, unless it handles a request. -/
inductive Records (n n' : Network) : Prop where
  | nothing (hphase : n'.client.phase = .created ↔ n.client.phase = .created) (h : recorded n n' = [])
  | invoke (hbefore : n.client.phase = .created) (hafter : n'.client.phase ≠ .created)
      (h : recorded n n' = [.invoke])
  | answer (hbefore : n.client.phase ≠ .created) (hafter : n'.client.phase ≠ .created) (response : Response)
      (hpromise : .ok response ∈ n'.client.promise) (h : recorded n n' = [.answer response])

theorem Records.of_client (hhandled : n'.server.handled = n.server.handled) (hphase : n'.client.phase = n.client.phase)
    (hpromise : n'.client.promise = n.client.promise) : Records n n' := by
  refine .nothing (by rw [hphase]) ?_
  rw [recorded_eq hhandled (by rw [hpromise, List.append_nil]), if_neg]
  · rfl
  · rintro ⟨hbefore, hafter⟩
    exact hafter (hphase.trans hbefore)

theorem Records.of_phase {results : List (Except String Response)} (hhandled : n'.server.handled = n.server.handled)
    (hphase : n.client.phase ≠ .created) (hphase' : n'.client.phase ≠ .created)
    (hpromise : n'.client.promise = n.client.promise ++ results) (hresults : results.filterMap answerOf = []) :
    Records n n' := by
  refine .nothing (iff_of_false hphase' hphase) ?_
  rw [recorded_eq hhandled hpromise, hresults, if_neg fun h => hphase h.1]
  rfl

theorem Records.of_run {results : List (Except String Response)} (hhandled : n'.server.handled = n.server.handled)
    (hphase : n.client.phase = .created) (hphase' : n'.client.phase ≠ .created)
    (hpromise : n'.client.promise = n.client.promise ++ results) (hresults : results.filterMap answerOf = []) :
    Records n n' := by
  refine .invoke hphase hphase' ?_
  rw [recorded_eq hhandled hpromise, hresults, if_pos ⟨hphase, hphase'⟩]
  rfl

theorem step_records (hserve : event.handlesRequest = false) (hstep : step P request n event = some n') :
    n'.server.handled = n.server.handled ∧ Records n n' := by
  cases step_cases hstep with
  | run hphase => exact ⟨rfl, Records.of_run rfl hphase (by simp) (List.append_nil _).symm rfl⟩
  | runThrows hphase => exact ⟨rfl, Records.of_run rfl hphase (by simp [ClientSession.onError]) rfl rfl⟩
  | onResolve hphase =>
    exact ⟨rfl, Records.of_phase rfl (by rw [hphase]; decide) (by simp) (List.append_nil _).symm rfl⟩
  | onConnect hphase =>
    exact ⟨rfl, Records.of_phase rfl (by rw [hphase]; decide) (by simp) (List.append_nil _).symm rfl⟩
  | onSend hphase =>
    exact ⟨rfl, Records.of_phase rfl (by rw [hphase]; decide) (by simp) (List.append_nil _).symm rfl⟩
  | onReceive hphase hcontent hremaining =>
    refine ⟨rfl, ?_⟩
    have hrun : n.client.phase ≠ .created := by rw [hphase]; decide
    have hrun' : n.client.onReceive.phase ≠ .created := by rw [ClientSession.phase_onReceive]; decide
    cases hparse : (Response.make .UnknownError ByteString.empty).deserialize n.client.reader.buffer with
    | error fault =>
      have hpromise : n.client.onReceive.promise = n.client.promise := by
        unfold ClientSession.onReceive
        rw [hparse]
      exact Records.of_phase rfl hrun hrun' (by rw [List.append_nil]; exact hpromise) rfl
    | ok response =>
      have hpromise : n.client.onReceive.promise = n.client.promise ++ [.ok response] := by
        unfold ClientSession.onReceive
        rw [hparse]
      refine .answer hrun hrun' response ?_ ?_
      · show Except.ok response ∈ n.client.onReceive.promise
        rw [hpromise]
        simp
      · refine Eq.trans (recorded_eq rfl hpromise) ?_
        rw [if_neg fun h => hrun h.1]
        rfl
  | clientError hrun hphase =>
    exact ⟨rfl, Records.of_phase rfl hrun (by simp [ClientSession.onError]) rfl rfl⟩
  | onRequestReceived hphase hcontent hremaining hanswer => cases hserve
  | _ => exact ⟨rfl, Records.of_client rfl rfl rfl⟩

/-- The handler of a request has read it, and calls `handle` with it for the first time. -/
theorem Inv.handles (h : Inv request n) (hlawful : request.Lawful) {opened : SnapshotStreams} {store : Store}
    (hstep : Networking.step P request n (.onRequestReceived opened store) = some n') :
    n'.client = n.client ∧ n.server.handled = [] ∧ n.server.reader.buffer = request.serialize ∧
      n'.server.handled = [(request, (StorageEngine.handle P opened store request).2)] := by
  cases step_cases hstep with
  | onRequestReceived hphase hcontent hremaining hserve =>
    obtain ⟨tail, htail⟩ := h.readsRequest hphase hcontent hremaining
    have hbuffer := (h.serving.readsFrom hphase).buffer_eq (framed_request hlawful) htail hcontent hremaining
    have hnil := h.serving.handled_eq_nil hphase
    rw [h.serving.onRequestReceived_eq hlawful htail hphase hcontent hremaining] at hserve
    cases hresult : (StorageEngine.handle P opened store request).2 with
    | error fault =>
      rw [hresult] at hserve
      cases hserve
      exact ⟨rfl, hnil, hbuffer, rfl⟩
    | ok response =>
      rw [hresult] at hserve
      cases hserve
      exact ⟨rfl, hnil, hbuffer, rfl⟩

end recorded

/-! ### Invariants -/

/-- The store behind the requests that were handled. -/
def storeAt (P : Platform) (w : Workload Cid) (initial : Store) (log : List (Cid × Happening)) : Store :=
  log.foldl (fun store entry =>
    match entry.2 with
    | .handle request _ => (StorageEngine.handle P (w.opened entry.1) store request).1
    | _ => store) initial

/-- What an entry says of the log before it. -/
def EntryFacts (P : Platform) (w : Workload Cid) (initial : Store) (before : List (Cid × Happening))
    (entry : Cid × Happening) : Prop :=
  match entry.2 with
  | .invoke => (entry.1, .invoke) ∉ before
  | .handle request result => request = w.request entry.1 ∧ (entry.1, .invoke) ∈ before ∧
      (∀ request' result', (entry.1, .handle request' result') ∉ before) ∧
      result = (StorageEngine.handle P (w.opened entry.1) (storeAt P w initial before) request).2
  | .answer response => ∃ response', (entry.1, .handle (w.request entry.1) (.ok response')) ∈ before ∧
      (5 + response'.value.size < 2 ^ 32 → response = response')

/-- Every connection is one exchange, the store is what the handled requests made of the first one, and what the log
says of a connection agrees with it. -/
structure ServiceInv (P : Platform) (w : Workload Cid) (initial : Store) (s : Service Cid) : Prop where
  exchange : ∀ c, Inv (w.request c) (s.connections c)
  invoked : ∀ c, (c, .invoke) ∈ s.log ↔ (s.connections c).client.phase ≠ .created
  handled : ∀ c request result,
    (c, .handle request result) ∈ s.log ↔ (request, result) ∈ (s.connections c).server.handled
  store : s.store = storeAt P w initial s.log
  entries : ∀ before entry after, s.log = before ++ entry :: after → EntryFacts P w initial before entry

theorem serviceInv_initial (P : Platform) (w : Workload Cid) (initial : Store) :
    ServiceInv P w initial { store := initial } where
  exchange c := inv_initial (w.request c)
  invoked c := iff_of_false List.not_mem_nil (by simp)
  handled c request result := iff_of_false List.not_mem_nil List.not_mem_nil
  store := rfl
  entries before entry after hsplit := absurd hsplit.symm (by simp)

section step

variable [DecidableEq Cid] {P : Platform} {w : Workload Cid} {initial : Store} {s s' : Service Cid} {c : Cid}
  {n : Network}

omit [DecidableEq Cid] in
theorem storeAt_append (log log' : List (Cid × Happening)) :
    storeAt P w initial (log ++ log') = storeAt P w (storeAt P w initial log) log' :=
  List.foldl_append

theorem ServiceInv.connection (h : ServiceInv P w initial s) {event : Event} (hserve : event.handlesRequest = false)
    (hstep : Networking.step P (w.request c) (s.connections c) event = some n) :
    ServiceInv P w initial (s.advance c n) := by
  obtain ⟨hhandled, hrecords⟩ := step_records hserve hstep
  have hinv := (h.exchange c).step (w.lawful c) hstep
  have hexchange : ∀ c', Inv (w.request c') (Function.update s.connections c n c') := by
    intro c'
    by_cases hne : c' = c
    · subst hne
      rw [Function.update_self]
      exact hinv
    · rw [Function.update_of_ne hne]
      exact h.exchange c'
  have hcalls : ∀ c' call, call ∈ (Function.update s.connections c n c').server.handled ↔
      call ∈ (s.connections c').server.handled := by
    intro c' call
    by_cases hne : c' = c
    · subst hne
      rw [Function.update_self, hhandled]
    · rw [Function.update_of_ne hne]
  have hphases : ∀ c', c' ≠ c → (Function.update s.connections c n c').client.phase
      = (s.connections c').client.phase := by
    intro c' hne
    rw [Function.update_of_ne hne]
  unfold Service.advance
  cases hrecords with
  | nothing hphase hnone =>
    rw [hnone, List.map_nil, List.append_nil]
    refine ⟨hexchange, ?_, ?_, h.store, h.entries⟩
    · intro c'
      rw [h.invoked]
      by_cases hne : c' = c
      · subst hne
        show _ ↔ (Function.update s.connections c' n c').client.phase ≠ .created
        rw [Function.update_self, ne_eq, ne_eq, hphase]
      · show _ ↔ (Function.update s.connections c n c').client.phase ≠ .created
        rw [hphases c' hne]
    · intro c' request result
      rw [h.handled]
      exact (hcalls c' _).symm
  | invoke hbefore hafter hone =>
    rw [hone]
    refine ⟨hexchange, ?_, ?_, ?_, Histories.forall_split_append h.entries ?_⟩
    · intro c'
      show (c', Happening.invoke) ∈ s.log ++ [(c, .invoke)] ↔
        (Function.update s.connections c n c').client.phase ≠ .created
      by_cases hne : c' = c
      · subst hne
        rw [Function.update_self]
        exact iff_of_true (by simp) hafter
      · rw [hphases c' hne, ← h.invoked]
        simp [hne]
    · intro c' request result
      show (c', Happening.handle request result) ∈ s.log ++ [(c, .invoke)] ↔ _
      rw [List.mem_append, h.handled, ← hcalls]
      simp
    · show s.store = storeAt P w initial (s.log ++ [(c, .invoke)])
      rw [storeAt_append, ← h.store]
      rfl
    · show (c, Happening.invoke) ∉ s.log
      rw [h.invoked, not_not]
      exact hbefore
  | answer hbefore hafter response hpromise hone =>
    rw [hone]
    refine ⟨hexchange, ?_, ?_, ?_, Histories.forall_split_append h.entries ?_⟩
    · intro c'
      show (c', Happening.invoke) ∈ s.log ++ [(c, .answer response)] ↔
        (Function.update s.connections c n c').client.phase ≠ .created
      by_cases hne : c' = c
      · subst hne
        rw [Function.update_self, List.mem_append, h.invoked]
        exact iff_of_true (Or.inl hbefore) hafter
      · rw [hphases c' hne, List.mem_append, h.invoked]
        simp
    · intro c' request result
      show (c', Happening.handle request result) ∈ s.log ++ [(c, .answer response)] ↔ _
      rw [List.mem_append, h.handled, ← hcalls]
      simp
    · show s.store = storeAt P w initial (s.log ++ [(c, .answer response)])
      rw [storeAt_append, ← h.store]
      rfl
    · obtain ⟨response', hcall, hsize⟩ := hinv.receiving.value response hpromise
      refine ⟨response', ?_, hsize⟩
      rw [h.handled, ← hhandled, hcall]
      exact List.mem_singleton.mpr rfl

theorem ServiceInv.onRequestReceived (h : ServiceInv P w initial s)
    (hstep : Networking.step P (w.request c) (s.connections c) (.onRequestReceived (w.opened c) s.store) = some n) :
    ServiceInv P w initial { s.advance c n with
      store := storeAfter P (w.opened c) s.store (s.connections c).server.reader.buffer
      alive := decide (n.server.phase = .writing) } := by
  obtain ⟨hclient, hnil, hbuffer, hcall⟩ := (h.exchange c).handles (w.lawful c) hstep
  have hinv := (h.exchange c).step (w.lawful c) hstep
  have hrecorded : recorded (s.connections c) n
      = [.handle (w.request c) (StorageEngine.handle P (w.opened c) s.store (w.request c)).2] := by
    unfold recorded
    rw [hclient, hnil, hcall, if_neg fun h => h.2 h.1, List.drop_length]
    rfl
  have hafter : storeAfter P (w.opened c) s.store (s.connections c).server.reader.buffer
      = (StorageEngine.handle P (w.opened c) s.store (w.request c)).1 := by
    unfold storeAfter
    rw [hbuffer, deserialize_request (w.lawful c)]
  unfold Service.advance
  rw [hrecorded]
  refine ⟨?_, ?_, ?_, ?_, Histories.forall_split_append h.entries ?_⟩
  · intro c'
    show Inv (w.request c') (Function.update s.connections c n c')
    by_cases hne : c' = c
    · subst hne
      rw [Function.update_self]
      exact hinv
    · rw [Function.update_of_ne hne]
      exact h.exchange c'
  · intro c'
    show _ ∈ s.log ++ _ ↔ (Function.update s.connections c n c').client.phase ≠ .created
    rw [List.mem_append, h.invoked]
    by_cases hne : c' = c
    · subst hne
      rw [Function.update_self, hclient]
      simp
    · rw [Function.update_of_ne hne]
      simp
  · intro c' request result
    show _ ∈ s.log ++ _ ↔ (request, result) ∈ (Function.update s.connections c n c').server.handled
    rw [List.mem_append, h.handled]
    by_cases hne : c' = c
    · subst hne
      rw [Function.update_self, hcall, hnil]
      simp
    · rw [Function.update_of_ne hne]
      simp [hne]
  · show storeAfter P (w.opened c) s.store (s.connections c).server.reader.buffer = storeAt P w initial (s.log ++ _)
    rw [storeAt_append, ← h.store, hafter]
    rfl
  · refine ⟨rfl, ?_, ?_, by rw [← h.store]⟩
    · -- what was read, a client had sent
      rw [h.invoked]
      intro hcreated
      have hwritten := (h.exchange c).sent.nothing (Or.inl hcreated)
      cases step_cases hstep with
      | onRequestReceived hphase hcontent hremaining hserve =>
        exact ((h.exchange c).serving.readsFrom hphase).written_ne_nil hcontent (by decide) hwritten
    · intro request' result'
      rw [h.handled, hnil]
      exact List.not_mem_nil

theorem ServiceInv.step (h : ServiceInv P w initial s) {event : ServiceEvent Cid}
    (hstep : s.step P w event = some s') : ServiceInv P w initial s' := by
  cases Service.step_cases hstep with
  | connection hserve hserver hnetwork => exact h.connection hserve hnetwork
  | onRequestReceived halive hnetwork => exact h.onRequestReceived hnetwork

theorem ServiceInv.run (h : ServiceInv P w initial s) (events : List (ServiceEvent Cid)) :
    ServiceInv P w initial (Runs.run (Service.next P w) s events) := by
  refine Runs.run_inv (ServiceInv P w initial) ?_ (Runs.Meets.of_forall (Service.next P w) s fun event _ => trivial) h
  intro s event hinv _
  unfold Service.next
  cases hstep : s.step P w event with
  | none => exact hinv
  | some s' => exact hinv.step hstep

end step

end Networking

end OmxDb
