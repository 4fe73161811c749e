import OmxDb.PutsAndGets
import OmxDb.ServiceRuns

/-!
# Any number of worker threads

`ServerBase::start` runs the `io_service` on the threads it starts, and `wait` on one more, so that handlers of
different sessions overlap. A handler touches nothing but its session, except that `onRequestReceived` calls
`Database::handle`, whose puts and gets are turns on the common store. So a thread takes a request that a session has
read, makes its turns while the other threads make theirs, and hands the response to the session.

The calls of the history belong to the clients (`WorkersInv`): where a client is run before its call begins, and has its
response behind its return, the calls of `put` and `get` linearize what the clients asked.
-/

namespace OmxDb

open StorageEngine Histories Linearization

/-! ### Requests as puts and gets -/

/-- What `handle` does with a request of type `Get` or `Put`. -/
def Request.asked (request : Request) : Option Asked :=
  if request.requestType = .Get then some (.get request.key)
  else if request.requestType = .Put then some (.put request.key request.value)
  else none

/-- The call of a thread. -/
def Asked.action {Tid : Type*} (t : Tid) : Asked → Action Tid
  | .put key value => .put t key value
  | .get key => .get t key

/-- What the call returns where no other thread has a turn. -/
def Asked.alone (P : Platform) (s : Store) : Asked → Store × Answer
  | .put key value => ((StorageEngine.put P {} s key value).1, .put (StorageEngine.put P {} s key value).2)
  | .get key => (s, .get (StorageEngine.get P s key))

/-- The response to an exception; anything else leaves `handle`. -/
def caught (fault : Fault) : Except Fault Response :=
  if fault.isException then .ok (Response.make .UnknownError ByteString.empty) else .error fault

/-- What `handle` makes of what `put` or `get` returned. -/
def Answer.response : Answer → Except Fault Response
  | .put (.ok ()) => .ok (Response.make .Ok ByteString.empty)
  | .put (.error fault) => caught fault
  | .get (.ok found) => .ok (getResponse found)
  | .get (.error fault) => caught fault

theorem catchException_snd (s : Store) (fault : Fault) : (catchException s fault).2 = caught fault := by
  unfold catchException caught
  split_ifs <;> rfl

/-- `handle` is the call the request asks for, and what is made of its answer. -/
theorem handle_asked (P : Platform) (s : Store) {request : Request} {asked : Asked}
    (h : request.asked = some asked) :
    StorageEngine.handle P {} s request = ((asked.alone P s).1, (asked.alone P s).2.response) := by
  unfold Request.asked at h
  unfold StorageEngine.handle
  split_ifs at h with hget hput
  · cases h
    rw [if_pos hget]
    unfold Asked.alone
    dsimp only
    cases hresult : StorageEngine.get P s request.key with
    | error fault => exact Prod.ext (catchException_store s fault) (catchException_snd s fault)
    | ok found => cases found <;> rfl
  · cases h
    rw [if_neg hget, if_pos hput]
    unfold Asked.alone
    dsimp only
    cases hresult : StorageEngine.put P {} s request.key request.value with
    | mk s' result =>
      cases result with
      | error fault => exact Prod.ext (catchException_store s' fault) (catchException_snd s' fault)
      | ok _ => rfl

theorem Answer.response_made {answer : Answer} {response : Response} (h : answer.response = .ok response) :
    ∃ responseStatus value, response = Response.make responseStatus value := by
  have hcaught : ∀ fault, caught fault = .ok response → ∃ responseStatus value,
      response = Response.make responseStatus value := by
    intro fault hfault
    unfold caught at hfault
    split_ifs at hfault
    cases hfault
    exact ⟨_, _, rfl⟩
  cases answer with
  | put result =>
    cases result with
    | error fault => exact hcaught fault h
    | ok _ =>
      cases h
      exact ⟨_, _, rfl⟩
  | get result =>
    cases result with
    | error fault => exact hcaught fault h
    | ok found =>
      cases found with
      | none =>
        cases h
        exact ⟨_, _, rfl⟩
      | some value =>
        cases h
        exact ⟨_, _, rfl⟩

/-! ### Calls in a history that grows -/

section current

variable {Tid : Type*} {history : List (Tid × Happening)} {t : Tid} {n m : Nat} {asked : Asked} {answer : Answer}

/-- The thread began this call there, and has inserted at most since. -/
def Current (history : List (Tid × Happening)) (t : Tid) (n : Nat) (asked : Asked) : Prop :=
  ∃ begun, history[n]? = some (t, begun) ∧ begun.asked = some asked ∧
    ∀ l happening, n < l → history[l]? = some (t, happening) → happening.inserts = true

theorem getElem?_append_of_some {x : List (Tid × Happening)} {entry : Tid × Happening}
    (h : history[n]? = some entry) : (history ++ x)[n]? = some entry := by
  rw [List.getElem?_append_left (List.getElem?_eq_some_iff.mp h).1, h]

theorem Returned.append (h : Returned history n answer m) (x : List (Tid × Happening)) :
    Returned (history ++ x) n answer m := by
  obtain ⟨t, begun, happening, hbegun, hasked, hlt, hreturn, hanswer, hbetween⟩ := h
  refine ⟨t, begun, happening, getElem?_append_of_some hbegun, hasked, hlt, getElem?_append_of_some hreturn, hanswer,
    ?_⟩
  intro l happening' hlower hupper hl
  have hlength := (List.getElem?_eq_some_iff.mp hreturn).1
  rw [List.getElem?_append_left (by omega)] at hl
  exact hbetween l happening' hlower hupper hl

theorem Returned.lt_length (h : Returned history n answer m) : m < history.length := by
  obtain ⟨t, begun, happening, -, -, -, hreturn, -⟩ := h
  exact (List.getElem?_eq_some_iff.mp hreturn).1

theorem Current.append (h : Current history t n asked) {x : List (Tid × Happening)}
    (hx : ∀ happening, (t, happening) ∈ x → happening.inserts = true) : Current (history ++ x) t n asked := by
  obtain ⟨begun, hbegun, hasked, hinserts⟩ := h
  refine ⟨begun, getElem?_append_of_some hbegun, hasked, ?_⟩
  intro l happening hlower hl
  by_cases hlength : l < history.length
  · rw [List.getElem?_append_left hlength] at hl
    exact hinserts l happening hlower hl
  · rw [List.getElem?_append_right (by omega)] at hl
    exact hx happening (List.mem_of_getElem? hl)

theorem Current.returned (h : Current history t n asked) {happening : Happening}
    (hanswer : happening.answer = some answer) :
    Returned (history ++ [(t, happening)]) n answer history.length := by
  obtain ⟨begun, hbegun, hasked, hinserts⟩ := h
  refine ⟨t, begun, happening, getElem?_append_of_some hbegun, by rw [hasked]; exact Option.some_ne_none _,
    (List.getElem?_eq_some_iff.mp hbegun).1, by simp, hanswer, ?_⟩
  intro l happening' hlower hupper hl
  rw [List.getElem?_append_left hupper] at hl
  exact hinserts l happening' hlower hl

theorem Current.begin {happening : Happening} (hasked : happening.asked = some asked) :
    Current (history ++ [(t, happening)]) t history.length asked := by
  refine ⟨happening, by simp, hasked, ?_⟩
  intro l happening' hlower hl
  have hlength := (List.getElem?_eq_some_iff.mp hl).1
  rw [List.length_append, List.length_singleton] at hlength
  omega

end current

theorem turn_cases (P : Platform) (s : Store) {running : Running} (hrunning : running ≠ .idle) :
    ∃ turn, OmxDb.turn P s running = some turn ∧
      (turn.running ≠ .idle ∧ (∀ entry ∈ turn.entries, entry.inserts = true) ∨
        turn.running = .idle ∧ ∃ entry answer, turn.entries = [entry] ∧ entry.answer = some answer) := by
  cases running with
  | idle => exact absurd rfl hrunning
  | getting key phase =>
    refine ⟨getTurn P s key phase, rfl, ?_⟩
    rcases getTurn_cases P s key phase with ⟨phase', hturn, -⟩ | ⟨result, hturn⟩
    · rw [hturn]
      exact Or.inl ⟨by simp, by simp⟩
    · rw [hturn]
      exact Or.inr ⟨rfl, _, _, rfl, rfl⟩
  | putting key value phase =>
    refine ⟨putTurn P s key value phase, rfl, ?_⟩
    by_cases hlocked : (Running.putting key value phase).holdsLock = true
    · by_cases hlast : ∃ result, phase = .unlocking result
      · obtain ⟨result, rfl⟩ := hlast
        exact Or.inr ⟨rfl, _, _, rfl, rfl⟩
      · obtain ⟨s', phase', hturn, -⟩ :=
          putTurn_locked P s key value hlocked fun result heq => hlast ⟨result, heq⟩
        rw [hturn]
        exact Or.inl ⟨by simp, by simp⟩
    · cases phase with
      | compressing =>
        unfold putTurn
        dsimp only
        split
        · exact Or.inr ⟨rfl, _, _, rfl, rfl⟩
        · exact Or.inl ⟨by simp, by simp⟩
      | locking row => exact Or.inl ⟨by simp [putTurn], by simp [putTurn, Happening.inserts]⟩
      | _ => exact absurd rfl hlocked

namespace Networking

open LittleEndian Framing

/-! ### Handing a response to a session -/

/-- What `onRequestReceived` does with what `handle` returned. -/
def ServerSession.respond (s : ServerSession) (request : Request) (result : Except Fault Response) :
    ServerSession × Option Response :=
  let s' := { s with phase := .finished, reader := { s.reader with buffer := [] } }
  match result with
  | .error fault => ({ s' with handled := s.handled ++ [(request, .error fault)] }, none)
  | .ok response => ({ s' with phase := .writing, handled := s.handled ++ [(request, .ok response)] }, some response)

theorem ServerSession.onRequestReceived_eq_respond {P : Platform} {opened : SnapshotStreams} {store : Store}
    {s : ServerSession} {request : Request} {result : Except Fault Response}
    (h : processRequest P opened store s.reader.buffer = .ok (request, result)) :
    s.onRequestReceived P opened store = s.respond request result := by
  unfold onRequestReceived
  rw [h]
  cases result <;> rfl

def Network.respond (n : Network) (request : Request) (result : Except Fault Response) : Network :=
  match n.server.respond request result with
  | (server, none) => { n with server := server }
  | (server, some response) => { n with server := server, toClient := n.toClient.write response.serialize }

/-- The session has read its request, and `onRequestReceived` is due. -/
def ServerSession.Ready (s : ServerSession) : Prop :=
  s.phase = .reading ∧ s.reader.content = true ∧ s.reader.remaining = 0

instance (s : ServerSession) : Decidable s.Ready :=
  inferInstanceAs (Decidable (s.phase = .reading ∧ s.reader.content = true ∧ s.reader.remaining = 0))

section respond

variable {request : Request} {n : Network} {result : Except Fault Response}

theorem Network.respond_client (n : Network) (request : Request) (result : Except Fault Response) :
    (n.respond request result).client = n.client := by
  cases result <;> rfl

theorem Network.respond_handled (n : Network) (request : Request) (result : Except Fault Response) :
    (n.respond request result).server.handled = n.server.handled ++ [(request, result)] := by
  cases result <;> rfl

theorem Network.respond_writing (n : Network) (request : Request) (result : Except Fault Response) :
    (n.respond request result).server.phase = .writing ↔ ∃ response, result = .ok response := by
  cases result <;> simp [respond, ServerSession.respond]

theorem Inv.buffer_eq (h : Inv request n) (hlawful : request.Lawful) (hready : n.server.Ready) :
    n.server.reader.buffer = request.serialize ∧ n.server.handled = [] ∧ n.client.phase ≠ .created := by
  obtain ⟨hphase, hcontent, hremaining⟩ := hready
  have hnonempty := (h.serving.readsFrom hphase).written_ne_nil hcontent (by decide)
  obtain ⟨tail, htail⟩ := h.sent.written.resolve_left hnonempty
  refine ⟨(h.serving.readsFrom hphase).buffer_eq (framed_request hlawful) htail hcontent hremaining,
    h.serving.handled_eq_nil hphase, ?_⟩
  intro hcreated
  exact hnonempty (h.sent.nothing (Or.inl hcreated))

theorem Inv.respond (h : Inv request n) (hphase : n.server.phase = .reading)
    (hmade : ∀ response, result = .ok response →
      ∃ responseStatus value, response = Response.make responseStatus value) :
    Inv request (n.respond request result) := by
  have hnil := h.serving.handled_eq_nil hphase
  have hnothing := h.serving.toClient_eq_nil hnil
  cases result with
  | error fault =>
    refine ⟨h.sent, ⟨?_, Or.inr ⟨.error fault, ?_, hnothing⟩⟩, h.receiving.call hnil _⟩
    · intro hread
      simp [Network.respond, ServerSession.respond] at hread
    · show n.server.handled ++ [(request, .error fault)] = _
      rw [hnil, List.nil_append]
  | ok response =>
    refine ⟨h.sent, ⟨?_, Or.inr ⟨.ok response, ?_, hmade response rfl, [], ?_⟩⟩,
      (h.receiving.call hnil _).incoming fun reader hreads => hreads.write _⟩
    · intro hread
      simp [Network.respond, ServerSession.respond] at hread
    · show n.server.handled ++ [(request, .ok response)] = _
      rw [hnil, List.nil_append]
    · show n.toClient.written ++ response.serialize = _
      rw [hnothing, List.nil_append, List.append_nil]

theorem step_server {P : Platform} {n' : Network} {event : Event} (hserver : event.ofServer = false)
    (hstep : step P request n event = some n') : n'.server = n.server := by
  cases step_cases hstep with
  | accept hphase => cases hserver
  | receiveRequest hphase hle htake => cases hserver
  | onContentLengthReceived hphase hcontent hremaining => cases hserver
  | onRequestReceived hphase hcontent hremaining hserve => cases hserver
  | onResponseSent hphase => cases hserver
  | serverError haccepted hphase => cases hserver
  | _ => rfl

end respond

/-! ### Threads and connections -/

/-- The request a thread handles for a client, and what `put` or `get` returned, if they have. -/
structure Job (Cid : Type*) where
  client : Cid
  request : Request
  answer : Option Answer := none

/-- The clients, whose requests are puts and gets, as a constructor leaves them. -/
structure Demand (Cid : Type*) where
  request : Cid → Request
  asked : Cid → Asked
  lawful : ∀ c, (request c).Lawful
  asks : ∀ c, (request c).asked = some (asked c)

/-- The store with the calls of the threads, whether the process of the server runs, what the threads handle, where in
the history the call for a client began, the connections, and what has happened to the clients, with the length of the
history then. -/
structure Workers (Tid Cid : Type*) where
  system : System Tid
  alive : Bool := true
  jobs : Tid → Option (Job Cid) := fun _ => none
  called : Cid → Option Nat := fun _ => none
  connections : Cid → Network := fun _ => {}
  log : List ((Cid × Happening) × Nat) := []

/-- A step of a connection; a thread takes a request that was read, goes on with its call, or hands over its
response. -/
inductive WorkerEvent (Tid Cid : Type*) where
  | connection (c : Cid) (event : Event)
  | onRequestReceived (t : Tid) (c : Cid)
  | advance (t : Tid)
  | respond (t : Tid)

namespace Workers

variable {Tid Cid : Type*} [DecidableEq Tid] [DecidableEq Cid]

/-- A connection changes. -/
def connect (s : Workers Tid Cid) (c : Cid) (n : Network) : Workers Tid Cid :=
  { s with
    connections := Function.update s.connections c n
    log := s.log ++ (recorded (s.connections c) n).map fun happening => ((c, happening), s.system.history.length) }

/-- A thread handles the request of the client, so the session waits for nothing. -/
def busy (s : Workers Tid Cid) (c : Cid) : Bool :=
  (s.called c).isSome && (s.connections c).server.handled.isEmpty

/-- A thread begins with the request of a client. -/
def take (P : Platform) (s : Workers Tid Cid) (t : Tid) (c : Cid) (request : Request) (asked : Asked) :
    Workers Tid Cid :=
  { s with
    system := s.system.step P (asked.action t)
    jobs := Function.update s.jobs t (some { client := c, request := request })
    called := Function.update s.called c (some s.system.history.length) }

/-- The thread has its turn. -/
def turn (P : Platform) (s : Workers Tid Cid) (t : Tid) (job : Job Cid) : Workers Tid Cid :=
  let system := s.system.advance P t
  { s with
    system := system
    jobs := Function.update s.jobs t (some { job with
      answer := (system.history.drop s.system.history.length).findSome? fun entry => entry.2.answer }) }

/-- `handle` has returned, or its process has ended. -/
def finish (s : Workers Tid Cid) (t : Tid) (job : Job Cid) (answer : Answer) : Workers Tid Cid :=
  let n := (s.connections job.client).respond job.request answer.response
  { s.connect job.client n with
    alive := decide (n.server.phase = .writing)
    jobs := Function.update s.jobs t none }

/-- A step, where it is possible. A request that is not parsed ends the server, and so does a call of `handle` that
does not return. -/
def step (P : Platform) (w : Demand Cid) (s : Workers Tid Cid) : WorkerEvent Tid Cid → Option (Workers Tid Cid)
  | .connection c event =>
    if event.handlesRequest || (event.ofServer && (!s.alive || s.busy c)) then none
    else (Networking.step P (w.request c) (s.connections c) event).map (s.connect c)
  | .onRequestReceived t c =>
    if s.alive = true ∧ (s.jobs t).isNone = true ∧ (s.called c).isNone = true ∧ (s.connections c).server.Ready then
      match (Request.make .Get ⟨0⟩ ByteString.empty).deserialize (s.connections c).server.reader.buffer with
      | .error _ => some { s with alive := false }
      | .ok request => request.asked.map (s.take P t c request)
    else none
  | .advance t =>
    (s.jobs t).bind fun job =>
      if s.alive = true ∧ job.answer = none ∧
          ¬ ((s.system.running t).wantsLock && s.system.writer.isSome) = true then
        some (s.turn P t job)
      else none
  | .respond t =>
    (s.jobs t).bind fun job => job.answer.bind fun answer =>
      if s.alive then some (s.finish t job answer) else none

def next (P : Platform) (w : Demand Cid) (s : Workers Tid Cid) (event : WorkerEvent Tid Cid) : Workers Tid Cid :=
  (step P w s event).getD s

/-- What a step does. -/
inductive Steps (P : Platform) (w : Demand Cid) (s : Workers Tid Cid) :
    WorkerEvent Tid Cid → Workers Tid Cid → Prop where
  | connection {c : Cid} {event : Event} {n : Network} (hserve : event.handlesRequest = false)
      (hserver : event.ofServer = true → s.alive = true ∧ s.busy c = false)
      (hnetwork : Networking.step P (w.request c) (s.connections c) event = some n) :
      Steps P w s (.connection c event) (s.connect c n)
  | unparsed {t : Tid} {c : Cid} {fault : Fault} (halive : s.alive = true)
      (hready : (s.connections c).server.Ready)
      (hparse : (Request.make .Get ⟨0⟩ ByteString.empty).deserialize (s.connections c).server.reader.buffer
        = .error fault) :
      Steps P w s (.onRequestReceived t c) { s with alive := false }
  | take {t : Tid} {c : Cid} {request : Request} {asked : Asked} (hfree : s.jobs t = none) (hnone : s.called c = none)
      (hready : (s.connections c).server.Ready)
      (hparse : (Request.make .Get ⟨0⟩ ByteString.empty).deserialize (s.connections c).server.reader.buffer
        = .ok request)
      (hasked : request.asked = some asked) :
      Steps P w s (.onRequestReceived t c) (s.take P t c request asked)
  | advance {t : Tid} {job : Job Cid} (hjob : s.jobs t = some job) (hanswer : job.answer = none)
      (hlock : ((s.system.running t).wantsLock && s.system.writer.isSome) = false) :
      Steps P w s (.advance t) (s.turn P t job)
  | respond {t : Tid} {job : Job Cid} {answer : Answer} (hjob : s.jobs t = some job)
      (hanswer : job.answer = some answer) (halive : s.alive = true) :
      Steps P w s (.respond t) (s.finish t job answer)

theorem step_cases {P : Platform} {w : Demand Cid} {s s' : Workers Tid Cid} {event : WorkerEvent Tid Cid}
    (hstep : s.step P w event = some s') : Steps P w s event s' := by
  cases event with
  | connection c event =>
    simp only [step] at hstep
    split_ifs at hstep with hcond
    obtain ⟨n, hnetwork, rfl⟩ := Option.map_eq_some_iff.mp hstep
    rw [Bool.or_eq_true, not_or, Bool.not_eq_true] at hcond
    refine .connection hcond.1 ?_ hnetwork
    intro hserver
    simpa [hserver] using hcond.2
  | onRequestReceived t c =>
    simp only [step] at hstep
    split_ifs at hstep with hcond
    obtain ⟨halive, hfree, hnone, hready⟩ := hcond
    split at hstep
    next fault hparse =>
      cases hstep
      exact .unparsed halive hready hparse
    next request hparse =>
      obtain ⟨asked, hasked, rfl⟩ := Option.map_eq_some_iff.mp hstep
      exact .take (Option.isNone_iff_eq_none.mp hfree) (Option.isNone_iff_eq_none.mp hnone) hready hparse hasked
  | advance t =>
    simp only [step] at hstep
    obtain ⟨job, hjob, hturn⟩ := Option.bind_eq_some_iff.mp hstep
    split_ifs at hturn with hcond
    obtain ⟨-, hanswer, hlock⟩ := hcond
    cases hturn
    exact .advance hjob hanswer (Bool.not_eq_true _ ▸ hlock)
  | respond t =>
    simp only [step] at hstep
    obtain ⟨job, hjob, hrest⟩ := Option.bind_eq_some_iff.mp hstep
    obtain ⟨answer, hanswer, hfinish⟩ := Option.bind_eq_some_iff.mp hrest
    split_ifs at hfinish with halive
    cases hfinish
    exact .respond hjob hanswer halive

end Workers

end Networking

end OmxDb
