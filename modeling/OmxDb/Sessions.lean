import OmxDb.Lib.Framing
import OmxDb.Lib.Runs
import OmxDb.Wire

/-!
# One request over a connection

`ClientSession` sends a request and waits for the response; `ServerSession` reads the request, calls
`Database::handle` and sends what it returned. Both read in the same way: four bytes first, the content length, and
then that many more into the same buffer, which is then parsed as a whole. A step of the network is a handler of a
session, a chunk of bytes that arrives or is read, a socket error, or bytes behind a frame that nobody asked for.

A send is whole, and what was serialized goes out as it was: `async_send` may send less than the request without an
error (`PartialSends`), and `ServerSession` hands `async_write` a string that is local to its handler.
-/

namespace OmxDb

namespace Networking

open LittleEndian Framing

/-! ### Sessions -/

/-- `*reinterpret_cast<const ContentLength*>(data)`. -/
def contentLengthOf (data : List UInt8) : UInt32 := UInt32.ofNat (decodeLE data)

/-- The asynchronous operation a client session waits for. -/
inductive ClientPhase where
  | created
  | resolving
  | connecting
  | sending
  | reading
  | finished
deriving DecidableEq

/-- `reader` is `m_buffer` and the read into it; `promise` lists what the promise was set to. -/
structure ClientSession where
  phase : ClientPhase := .created
  reader : Reader UInt8 4 := {}
  contentLength : UInt32 := 0
  promise : List (Except String Response) := []

namespace ClientSession

def onError (s : ClientSession) (message : String) : ClientSession :=
  { s with phase := .finished, promise := s.promise ++ [.error message] }

def onContentLengthReceive (s : ClientSession) : ClientSession :=
  let contentLength := contentLengthOf (s.reader.buffer.take 4)
  { s with contentLength := contentLength, reader := s.reader.expect contentLength.toNat }

/-- An exception of the parser leaves the handler, and the promise is not set. -/
def onReceive (s : ClientSession) : ClientSession :=
  let s' := { s with phase := .finished, reader := { s.reader with buffer := [] } }
  match (Response.make .UnknownError ByteString.empty).deserialize s.reader.buffer with
  | .error _ => s'
  | .ok response => { s' with promise := s.promise ++ [.ok response] }

end ClientSession

/-- The asynchronous operation a server session waits for. -/
inductive ServerPhase where
  | created
  | reading
  | writing
  | finished
deriving DecidableEq

/-- `reader` is `m_requestBuffer` and the read into it; `handled` lists the calls of `Database::handle`. -/
structure ServerSession where
  phase : ServerPhase := .created
  reader : Reader UInt8 4 := {}
  contentLength : UInt32 := 0
  handled : List (Request × Except Fault Response) := []

namespace ServerSession

def onContentLengthReceived (s : ServerSession) : ServerSession :=
  let contentLength := contentLengthOf (s.reader.buffer.take 4)
  { s with contentLength := contentLength, reader := s.reader.expect contentLength.toNat }

/-- The request and what `handle` makes of it, in the state the database is in. -/
def processRequest (P : Platform) (opened : SnapshotStreams) (store : Store) (requestBuffer : List UInt8) :
    Except Fault (Request × Except Fault Response) :=
  match (Request.make .Get ⟨0⟩ ByteString.empty).deserialize requestBuffer with
  | .error fault => .error fault
  | .ok request => .ok (request, (StorageEngine.handle P opened store request).2)

/-- The session and the response it writes, if it gets one. -/
def onRequestReceived (P : Platform) (opened : SnapshotStreams) (store : Store) (s : ServerSession) :
    ServerSession × Option Response :=
  let s' := { s with phase := .finished, reader := { s.reader with buffer := [] } }
  match processRequest P opened store s.reader.buffer with
  | .error _ => (s', none)
  | .ok (request, .error fault) => ({ s' with handled := s.handled ++ [(request, .error fault)] }, none)
  | .ok (request, .ok response) =>
    ({ s' with phase := .writing, handled := s.handled ++ [(request, .ok response)] }, some response)

end ServerSession

/-! ### The network -/

structure Network where
  client : ClientSession := {}
  server : ServerSession := {}
  toServer : Channel UInt8 := {}
  toClient : Channel UInt8 := {}

/-- Handlers have the source's names; `receiveResponse` and `receiveRequest` are chunks of the pending reads. -/
inductive Event where
  | run
  | runThrows (what : String)
  | onResolve
  | onConnect
  | onSend
  | receiveResponse (numBytes : Nat)
  | onContentLengthReceive
  | onReceive
  | clientError (message : String)
  | accept
  | receiveRequest (numBytes : Nat)
  | onContentLengthReceived
  | onRequestReceived (opened : SnapshotStreams) (store : Store)
  | onResponseSent
  | serverError
  | deliverRequest (numBytes : Nat)
  | deliverResponse (numBytes : Nat)
  | followRequest (bytes : List UInt8)
  | followResponse (bytes : List UInt8)

/-- Socket errors, and a resolver that throws. -/
def Event.isError : Event → Bool
  | .runThrows _ => true
  | .clientError _ => true
  | .serverError => true
  | _ => false

/-- Bytes behind a frame. -/
def Event.isFollow : Event → Bool
  | .followRequest _ => true
  | .followResponse _ => true
  | _ => false

/-- A step of the network, where it is possible. -/
def step (P : Platform) (request : Request) (n : Network) : Event → Option Network
  | .run =>
    if n.client.phase = .created then some { n with client := { n.client with phase := .resolving } } else none
  | .runThrows what =>
    if n.client.phase = .created then some { n with client := n.client.onError what } else none
  | .onResolve =>
    if n.client.phase = .resolving then some { n with client := { n.client with phase := .connecting } } else none
  | .onConnect =>
    if n.client.phase = .connecting then
      some { n with
        client := { n.client with phase := .sending }
        toServer := n.toServer.write request.serialize }
    else none
  | .onSend =>
    if n.client.phase = .sending then some { n with client := { n.client with phase := .reading } } else none
  | .receiveResponse numBytes =>
    if n.client.phase = .reading ∧ numBytes ≤ n.client.reader.remaining then
      (n.toClient.take numBytes).map fun (bytes, toClient) =>
        { n with client := { n.client with reader := n.client.reader.receive bytes }, toClient := toClient }
    else none
  | .onContentLengthReceive =>
    if n.client.phase = .reading ∧ n.client.reader.content = false ∧ n.client.reader.remaining = 0 then
      some { n with client := n.client.onContentLengthReceive }
    else none
  | .onReceive =>
    if n.client.phase = .reading ∧ n.client.reader.content = true ∧ n.client.reader.remaining = 0 then
      some { n with client := n.client.onReceive }
    else none
  | .clientError message =>
    if n.client.phase = .created ∨ n.client.phase = .finished then none
    else some { n with client := n.client.onError message }
  | .accept =>
    if n.server.phase = .created then some { n with server := { n.server with phase := .reading } } else none
  | .receiveRequest numBytes =>
    if n.server.phase = .reading ∧ numBytes ≤ n.server.reader.remaining then
      (n.toServer.take numBytes).map fun (bytes, toServer) =>
        { n with server := { n.server with reader := n.server.reader.receive bytes }, toServer := toServer }
    else none
  | .onContentLengthReceived =>
    if n.server.phase = .reading ∧ n.server.reader.content = false ∧ n.server.reader.remaining = 0 then
      some { n with server := n.server.onContentLengthReceived }
    else none
  | .onRequestReceived opened store =>
    if n.server.phase = .reading ∧ n.server.reader.content = true ∧ n.server.reader.remaining = 0 then
      match n.server.onRequestReceived P opened store with
      | (server, none) => some { n with server := server }
      | (server, some response) =>
        some { n with server := server, toClient := n.toClient.write response.serialize }
    else none
  | .onResponseSent =>
    if n.server.phase = .writing then some { n with server := { n.server with phase := .finished } } else none
  | .serverError =>
    if n.server.phase = .created ∨ n.server.phase = .finished then none
    else some { n with server := { n.server with phase := .finished } }
  | .deliverRequest numBytes => (n.toServer.deliver numBytes).map fun toServer => { n with toServer := toServer }
  | .deliverResponse numBytes => (n.toClient.deliver numBytes).map fun toClient => { n with toClient := toClient }
  | .followRequest bytes =>
    if n.toServer.written = [] then none else some { n with toServer := n.toServer.write bytes }
  | .followResponse bytes =>
    if n.toClient.written = [] then none else some { n with toClient := n.toClient.write bytes }

/-- An event that is not possible changes nothing. -/
def next (P : Platform) (request : Request) (n : Network) (event : Event) : Network :=
  (step P request n event).getD n

theorem ClientSession.phase_onReceive (s : ClientSession) : s.onReceive.phase = .finished := by
  unfold onReceive
  dsimp only
  split <;> rfl

/-- What a step does. -/
inductive Steps (P : Platform) (request : Request) (n : Network) : Event → Network → Prop where
  | run (hphase : n.client.phase = .created) :
      Steps P request n .run { n with client := { n.client with phase := .resolving } }
  | runThrows {what : String} (hphase : n.client.phase = .created) :
      Steps P request n (.runThrows what) { n with client := n.client.onError what }
  | onResolve (hphase : n.client.phase = .resolving) :
      Steps P request n .onResolve { n with client := { n.client with phase := .connecting } }
  | onConnect (hphase : n.client.phase = .connecting) :
      Steps P request n .onConnect { n with
        client := { n.client with phase := .sending }
        toServer := n.toServer.write request.serialize }
  | onSend (hphase : n.client.phase = .sending) :
      Steps P request n .onSend { n with client := { n.client with phase := .reading } }
  | receiveResponse {numBytes : Nat} {bytes : List UInt8} {toClient : Channel UInt8}
      (hphase : n.client.phase = .reading) (hle : numBytes ≤ n.client.reader.remaining)
      (htake : n.toClient.take numBytes = some (bytes, toClient)) :
      Steps P request n (.receiveResponse numBytes) { n with
        client := { n.client with reader := n.client.reader.receive bytes }
        toClient := toClient }
  | onContentLengthReceive (hphase : n.client.phase = .reading) (hcontent : n.client.reader.content = false)
      (hremaining : n.client.reader.remaining = 0) :
      Steps P request n .onContentLengthReceive { n with client := n.client.onContentLengthReceive }
  | onReceive (hphase : n.client.phase = .reading) (hcontent : n.client.reader.content = true)
      (hremaining : n.client.reader.remaining = 0) :
      Steps P request n .onReceive { n with client := n.client.onReceive }
  | clientError {message : String} (hrun : n.client.phase ≠ .created) (hphase : n.client.phase ≠ .finished) :
      Steps P request n (.clientError message) { n with client := n.client.onError message }
  | accept (hphase : n.server.phase = .created) :
      Steps P request n .accept { n with server := { n.server with phase := .reading } }
  | receiveRequest {numBytes : Nat} {bytes : List UInt8} {toServer : Channel UInt8}
      (hphase : n.server.phase = .reading) (hle : numBytes ≤ n.server.reader.remaining)
      (htake : n.toServer.take numBytes = some (bytes, toServer)) :
      Steps P request n (.receiveRequest numBytes) { n with
        server := { n.server with reader := n.server.reader.receive bytes }
        toServer := toServer }
  | onContentLengthReceived (hphase : n.server.phase = .reading) (hcontent : n.server.reader.content = false)
      (hremaining : n.server.reader.remaining = 0) :
      Steps P request n .onContentLengthReceived { n with server := n.server.onContentLengthReceived }
  | onRequestReceived {opened : SnapshotStreams} {store : Store} {server : ServerSession} {written : Option Response}
      (hphase : n.server.phase = .reading) (hcontent : n.server.reader.content = true)
      (hremaining : n.server.reader.remaining = 0)
      (hserve : n.server.onRequestReceived P opened store = (server, written)) :
      Steps P request n (.onRequestReceived opened store) { n with
        server := server
        toClient := written.elim n.toClient fun response => n.toClient.write response.serialize }
  | onResponseSent (hphase : n.server.phase = .writing) :
      Steps P request n .onResponseSent { n with server := { n.server with phase := .finished } }
  | serverError (haccepted : n.server.phase ≠ .created) (hphase : n.server.phase ≠ .finished) :
      Steps P request n .serverError { n with server := { n.server with phase := .finished } }
  | deliverRequest {numBytes : Nat} {toServer : Channel UInt8}
      (hdeliver : n.toServer.deliver numBytes = some toServer) :
      Steps P request n (.deliverRequest numBytes) { n with toServer := toServer }
  | deliverResponse {numBytes : Nat} {toClient : Channel UInt8}
      (hdeliver : n.toClient.deliver numBytes = some toClient) :
      Steps P request n (.deliverResponse numBytes) { n with toClient := toClient }
  | followRequest {bytes : List UInt8} (hwritten : n.toServer.written ≠ []) :
      Steps P request n (.followRequest bytes) { n with toServer := n.toServer.write bytes }
  | followResponse {bytes : List UInt8} (hwritten : n.toClient.written ≠ []) :
      Steps P request n (.followResponse bytes) { n with toClient := n.toClient.write bytes }

theorem step_cases {P : Platform} {request : Request} {n n' : Network} {event : Event}
    (hstep : step P request n event = some n') : Steps P request n event n' := by
  cases event with
  | receiveResponse numBytes =>
    simp only [step] at hstep
    split_ifs at hstep with hcond
    obtain ⟨⟨bytes, toClient⟩, htake, rfl⟩ := Option.map_eq_some_iff.mp hstep
    exact .receiveResponse hcond.1 hcond.2 htake
  | receiveRequest numBytes =>
    simp only [step] at hstep
    split_ifs at hstep with hcond
    obtain ⟨⟨bytes, toServer⟩, htake, rfl⟩ := Option.map_eq_some_iff.mp hstep
    exact .receiveRequest hcond.1 hcond.2 htake
  | onRequestReceived opened store =>
    simp only [step] at hstep
    split_ifs at hstep with hcond
    cases hserve : n.server.onRequestReceived P opened store with
    | mk server written =>
      rw [hserve] at hstep
      have hsteps : Steps P request n (.onRequestReceived opened store) _ :=
        .onRequestReceived hcond.1 hcond.2.1 hcond.2.2 hserve
      cases written with
      | none =>
        cases hstep
        exact hsteps
      | some response =>
        cases hstep
        exact hsteps
  | deliverRequest numBytes =>
    obtain ⟨toServer, hdeliver, rfl⟩ := Option.map_eq_some_iff.mp hstep
    exact .deliverRequest hdeliver
  | deliverResponse numBytes =>
    obtain ⟨toClient, hdeliver, rfl⟩ := Option.map_eq_some_iff.mp hstep
    exact .deliverResponse hdeliver
  | clientError message =>
    simp only [step] at hstep
    split_ifs at hstep with hphase
    cases hstep
    exact .clientError (fun h => hphase (Or.inl h)) fun h => hphase (Or.inr h)
  | serverError =>
    simp only [step] at hstep
    split_ifs at hstep with hphase
    cases hstep
    exact .serverError (fun h => hphase (Or.inl h)) fun h => hphase (Or.inr h)
  | onContentLengthReceive =>
    simp only [step] at hstep
    split_ifs at hstep with hcond
    cases hstep
    exact .onContentLengthReceive hcond.1 hcond.2.1 hcond.2.2
  | onReceive =>
    simp only [step] at hstep
    split_ifs at hstep with hcond
    cases hstep
    exact .onReceive hcond.1 hcond.2.1 hcond.2.2
  | onContentLengthReceived =>
    simp only [step] at hstep
    split_ifs at hstep with hcond
    cases hstep
    exact .onContentLengthReceived hcond.1 hcond.2.1 hcond.2.2
  | _ =>
    simp only [step] at hstep
    split_ifs at hstep with hguard
    cases hstep
    constructor
    exact hguard

theorem Steps.step_eq {P : Platform} {request : Request} {n n' : Network} {event : Event}
    (h : Steps P request n event n') : step P request n event = some n' := by
  cases h with
  | @onRequestReceived opened store server written hphase hcontent hremaining hserve =>
    simp only [step]
    rw [if_pos ⟨hphase, hcontent, hremaining⟩, hserve]
    cases written with
    | none => rfl
    | some response => rfl
  | _ => simp [step, *]

/-! ### Coming to rest -/

/-- Nothing is left to do: no handler is due, and no byte is on its way or can be read. -/
def AtRest (P : Platform) (request : Request) (n : Network) : Prop :=
  ∀ event : Event, event.isError = false → event.isFollow = false → step P request n event = none

theorem AtRest.not_steps {P : Platform} {request : Request} {n n' : Network} {event : Event}
    (h : AtRest P request n) (hsteps : Steps P request n event n') (herror : event.isError = false)
    (hfollow : event.isFollow = false) : False := by
  have hnone := h event herror hfollow
  rw [hsteps.step_eq] at hnone
  cases hnone

/-- The handlers that can still run, at most. -/
def ClientSession.handlersLeft (s : ClientSession) : Nat :=
  match s.phase with
  | .created => 6
  | .resolving => 5
  | .connecting => 4
  | .sending => 3
  | .reading => if s.reader.content then 1 else 2
  | .finished => 0

def ServerSession.handlersLeft (s : ServerSession) : Nat :=
  match s.phase with
  | .created => 4
  | .reading => if s.reader.content then 2 else 3
  | .writing => 1
  | .finished => 0

def Network.handlersLeft (n : Network) : Nat := n.client.handlersLeft + n.server.handlersLeft

def Network.bytesLeft (n : Network) : Nat := n.toServer.left + n.toClient.left

theorem ServerSession.handlersLeft_onRequestReceived (P : Platform) (opened : SnapshotStreams) (store : Store)
    (s : ServerSession) : (s.onRequestReceived P opened store).1.handlersLeft ≤ 1 := by
  unfold onRequestReceived
  dsimp only
  split <;> simp [handlersLeft]

theorem step_decreases {P : Platform} {request : Request} {n n' : Network} {event : Event}
    (herror : event.isError = false) (hfollow : event.isFollow = false) (hstep : step P request n event = some n') :
    n'.handlersLeft < n.handlersLeft ∨ n'.handlersLeft = n.handlersLeft ∧ n'.bytesLeft < n.bytesLeft := by
  unfold Network.handlersLeft Network.bytesLeft
  cases step_cases hstep with
  | runThrows hphase => cases herror
  | clientError hrun hphase => cases herror
  | serverError haccepted hphase => cases herror
  | followRequest hwritten => cases hfollow
  | followResponse hwritten => cases hfollow
  | deliverRequest hdeliver => exact Or.inr ⟨rfl, Nat.add_lt_add_right (Channel.left_deliver hdeliver) _⟩
  | deliverResponse hdeliver => exact Or.inr ⟨rfl, Nat.add_lt_add_left (Channel.left_deliver hdeliver) _⟩
  | receiveResponse hphase hle htake => exact Or.inr ⟨rfl, Nat.add_lt_add_left (Channel.left_take htake) _⟩
  | receiveRequest hphase hle htake => exact Or.inr ⟨rfl, Nat.add_lt_add_right (Channel.left_take htake) _⟩
  | onReceive hphase hcontent hremaining =>
    refine Or.inl (Nat.add_lt_add_right ?_ _)
    simp [ClientSession.handlersLeft, n.client.phase_onReceive, hphase, hcontent]
  | @onRequestReceived opened store server written hphase hcontent hremaining hserve =>
    refine Or.inl (Nat.add_lt_add_left ?_ _)
    have hbefore : n.server.handlersLeft = 2 := by simp [ServerSession.handlersLeft, hphase, hcontent]
    have hafter := n.server.handlersLeft_onRequestReceived P opened store
    rw [hserve] at hafter
    rw [hbefore]
    exact Nat.lt_succ_of_le hafter
  | onSend hphase =>
    refine Or.inl (Nat.add_lt_add_right ?_ _)
    simp only [ClientSession.handlersLeft, hphase]
    split <;> omega
  | accept hphase =>
    refine Or.inl (Nat.add_lt_add_left ?_ _)
    simp only [ServerSession.handlersLeft, hphase]
    split <;> omega
  | onContentLengthReceive hphase hcontent hremaining =>
    refine Or.inl (Nat.add_lt_add_right ?_ _)
    simp [ClientSession.handlersLeft, ClientSession.onContentLengthReceive, Reader.expect, hphase, hcontent]
  | onContentLengthReceived hphase hcontent hremaining =>
    refine Or.inl (Nat.add_lt_add_left ?_ _)
    simp [ServerSession.handlersLeft, ServerSession.onContentLengthReceived, Reader.expect, hphase, hcontent]
  | onResponseSent hphase =>
    refine Or.inl (Nat.add_lt_add_left ?_ _)
    simp [ServerSession.handlersLeft, hphase]
  | run hphase =>
    refine Or.inl (Nat.add_lt_add_right ?_ _)
    simp [ClientSession.handlersLeft, hphase]
  | onResolve hphase =>
    refine Or.inl (Nat.add_lt_add_right ?_ _)
    simp [ClientSession.handlersLeft, hphase]
  | onConnect hphase =>
    refine Or.inl (Nat.add_lt_add_right ?_ _)
    simp [ClientSession.handlersLeft, hphase]

/-- Without errors and further bytes the sessions come to rest: whichever step they take leaves less. -/
theorem exists_rest (P : Platform) (request : Request) (n : Network) :
    ∃ events : List Event, (∀ event ∈ events, event.isError = false ∧ event.isFollow = false) ∧
      AtRest P request (Runs.run (next P request) n events) := by
  by_cases hrest : AtRest P request n
  · exact ⟨[], by simp, hrest⟩
  · unfold AtRest at hrest
    push Not at hrest
    obtain ⟨event, herror, hfollow, hpossible⟩ := hrest
    obtain ⟨n', hstep⟩ := Option.ne_none_iff_exists'.mp hpossible
    have hless := step_decreases herror hfollow hstep
    obtain ⟨events, hevents, hrest'⟩ := exists_rest P request n'
    refine ⟨event :: events, List.forall_mem_cons.mpr ⟨⟨herror, hfollow⟩, hevents⟩, ?_⟩
    rw [Runs.run_cons, next, hstep]
    exact hrest'
termination_by (n.handlersLeft, n.bytesLeft)
decreasing_by exact Prod.lex_def.mpr hless

/-! ### Messages -/

theorem toNat_contentLengthOf {data : List UInt8} (h : data.length ≤ 4) :
    (contentLengthOf data).toNat = decodeLE data := by
  have hlt := decodeLE_lt data
  have hle : 256 ^ data.length ≤ 256 ^ 4 := Nat.pow_le_pow_right (by decide) h
  exact UInt32.toNat_ofNat_of_lt' (lt_of_lt_of_le hlt hle)

/-- What a reader reads, of either session. -/
abbrev ReadsFrom (reader : Reader UInt8 4) (channel : Channel UInt8) : Prop :=
  reader.Reads (fun data => (contentLengthOf data).toNat) channel

theorem framed_of_take {bytes : List UInt8} (hlength : 4 ≤ bytes.length)
    (h : decodeLE (bytes.take 4) = bytes.length - 4) :
    Reader.Framed 4 (fun data => (contentLengthOf data).toNat) bytes where
  header_le := hlength
  size := by rw [toNat_contentLengthOf (List.length_take_le 4 bytes), h]

theorem framed_request {request : Request} (h : request.Lawful) :
    Reader.Framed 4 (fun data => (contentLengthOf data).toNat) request.serialize :=
  framed_of_take (by rw [request.length_serialize]; omega) h.framed

theorem framed_response {response : Response} (h : response.Lawful) :
    Reader.Framed 4 (fun data => (contentLengthOf data).toNat) response.serialize :=
  framed_of_take (by rw [response.length_serialize]; omega) h.framed

theorem deserialize_request {request : Request} (h : request.Lawful) (target : Request) :
    target.deserialize request.serialize = .ok request := by
  obtain ⟨value, hread, hvalue⟩ := request.deserialize_serialize target []
  rw [List.append_nil] at hread
  rw [(take_size_eq_iff request.value).mpr (request.readsBack_iff.mp h.readsBack)] at hvalue
  rw [hread, ByteString.ext hvalue]

theorem deserialize_response {response : Response} (h : response.Lawful) (target : Response) :
    target.deserialize response.serialize = .ok response := by
  obtain ⟨value, hread, hvalue⟩ := response.deserialize_serialize target []
  rw [List.append_nil] at hread
  rw [(take_size_eq_iff response.value).mpr (response.readsBack_iff.mp h.readsBack)] at hvalue
  rw [hread, ByteString.ext hvalue]

/-- Every response of `handle` comes from the constructor. -/
theorem handle_made {P : Platform} {opened : SnapshotStreams} {store : Store} {request : Request}
    {response : Response} (h : (StorageEngine.handle P opened store request).2 = .ok response) :
    ∃ responseStatus value, response = Response.make responseStatus value := by
  have hcatch : ∀ (s : Store) (fault : Fault), (StorageEngine.catchException s fault).2 = .ok response →
      ∃ responseStatus value, response = Response.make responseStatus value := by
    intro s fault hcatch
    unfold StorageEngine.catchException at hcatch
    split_ifs at hcatch
    cases hcatch
    exact ⟨_, _, rfl⟩
  unfold StorageEngine.handle at h
  split at h
  · split at h
    · exact hcatch _ _ h
    · cases h
      exact ⟨_, _, rfl⟩
    · cases h
      exact ⟨_, _, rfl⟩
  · split at h
    · split at h
      · exact hcatch _ _ h
      · cases h
        exact ⟨_, _, rfl⟩
    · split at h
      · cases h
        exact ⟨_, _, rfl⟩
      · cases h
        exact ⟨_, _, rfl⟩

end Networking

end OmxDb
