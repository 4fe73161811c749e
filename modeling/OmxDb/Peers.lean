import OmxDb.Frames
import OmxDb.Workers

/-!
# Peers that send any bytes

The server reads from whoever connects. Here a peer is not `ClientSession`: it sends any bytes at any time, before its
connection is accepted, in the middle of a frame or behind one. A session takes no byte behind the first frame
of its connection, calls `handle` at most once, with what this frame is parsed to, and writes back nothing but the
response to it (`first_frames_served`). Without socket errors a server that runs answers exactly the connections whose
bytes begin with a whole frame; the sessions of the others wait for ever (`served_iff_frame`).
-/

namespace OmxDb

namespace Networking

open LittleEndian Framing StorageEngine

variable {Cid : Type*}

/-! ### The server -/

/-- A connection on the side of the server: its session, what the peer sends, and what was written back. -/
structure Served where
  session : ServerSession := {}
  incoming : Channel UInt8 := {}
  outgoing : List UInt8 := []

/-- `send` is what the peer does; `error` is an operation of the session that fails. -/
inductive PeerEvent where
  | send (bytes : List UInt8)
  | deliver (numBytes : Nat)
  | accept
  | receive (numBytes : Nat)
  | onContentLengthReceived
  | onRequestReceived (opened : SnapshotStreams)
  | onResponseSent
  | error

/-- The network can move bytes when the server does not run. -/
def PeerEvent.ofServer : PeerEvent → Bool
  | .send _ => false
  | .deliver _ => false
  | _ => true

def PeerEvent.isError : PeerEvent → Bool
  | .error => true
  | _ => false

def PeerEvent.isSend : PeerEvent → Bool
  | .send _ => true
  | _ => false

/-- A call of `handle` for a connection. -/
structure HandleCall (Cid : Type*) where
  peer : Cid
  opened : SnapshotStreams
  request : Request
  result : Except Fault Response

structure Server (Cid : Type*) where
  store : Store
  alive : Bool := true
  served : Cid → Served := fun _ => {}
  calls : List (HandleCall Cid) := []

namespace Served

/-- A step of a connection that does not handle a request. -/
def step (p : Served) : PeerEvent → Option Served
  | .send bytes => some { p with incoming := p.incoming.write bytes }
  | .deliver numBytes => (p.incoming.deliver numBytes).map fun incoming => { p with incoming := incoming }
  | .accept =>
    if p.session.phase = .created then some { p with session := { p.session with phase := .reading } } else none
  | .receive numBytes =>
    if p.session.phase = .reading ∧ numBytes ≤ p.session.reader.remaining then
      (p.incoming.take numBytes).map fun (bytes, incoming) =>
        { p with session := { p.session with reader := p.session.reader.receive bytes }, incoming := incoming }
    else none
  | .onContentLengthReceived =>
    if p.session.phase = .reading ∧ p.session.reader.content = false ∧ p.session.reader.remaining = 0 then
      some { p with session := p.session.onContentLengthReceived }
    else none
  | .onRequestReceived _ => none
  | .onResponseSent =>
    if p.session.phase = .writing then some { p with session := { p.session with phase := .finished } } else none
  | .error =>
    if p.session.phase = .created ∨ p.session.phase = .finished then none
    else some { p with session := { p.session with phase := .finished } }

/-- What a step does. -/
inductive Steps (p : Served) : PeerEvent → Served → Prop where
  | send {bytes : List UInt8} : Steps p (.send bytes) { p with incoming := p.incoming.write bytes }
  | deliver {numBytes : Nat} {incoming : Channel UInt8} (hdeliver : p.incoming.deliver numBytes = some incoming) :
      Steps p (.deliver numBytes) { p with incoming := incoming }
  | accept (hphase : p.session.phase = .created) :
      Steps p .accept { p with session := { p.session with phase := .reading } }
  | receive {numBytes : Nat} {bytes : List UInt8} {incoming : Channel UInt8} (hphase : p.session.phase = .reading)
      (hle : numBytes ≤ p.session.reader.remaining) (htake : p.incoming.take numBytes = some (bytes, incoming)) :
      Steps p (.receive numBytes)
        { p with session := { p.session with reader := p.session.reader.receive bytes }, incoming := incoming }
  | onContentLengthReceived (hphase : p.session.phase = .reading) (hcontent : p.session.reader.content = false)
      (hremaining : p.session.reader.remaining = 0) :
      Steps p .onContentLengthReceived { p with session := p.session.onContentLengthReceived }
  | onResponseSent (hphase : p.session.phase = .writing) :
      Steps p .onResponseSent { p with session := { p.session with phase := .finished } }
  | error (haccepted : p.session.phase ≠ .created) (hphase : p.session.phase ≠ .finished) :
      Steps p .error { p with session := { p.session with phase := .finished } }

theorem step_cases {p p' : Served} {event : PeerEvent} (hstep : p.step event = some p') : Steps p event p' := by
  cases event with
  | send bytes =>
    cases hstep
    exact .send
  | deliver numBytes =>
    obtain ⟨incoming, hdeliver, rfl⟩ := Option.map_eq_some_iff.mp hstep
    exact .deliver hdeliver
  | accept =>
    simp only [step] at hstep
    split_ifs at hstep with hphase
    cases hstep
    exact .accept hphase
  | receive numBytes =>
    simp only [step] at hstep
    split_ifs at hstep with hcond
    obtain ⟨⟨bytes, incoming⟩, htake, rfl⟩ := Option.map_eq_some_iff.mp hstep
    exact .receive hcond.1 hcond.2 htake
  | onContentLengthReceived =>
    simp only [step] at hstep
    split_ifs at hstep with hcond
    cases hstep
    exact .onContentLengthReceived hcond.1 hcond.2.1 hcond.2.2
  | onRequestReceived opened => cases hstep
  | onResponseSent =>
    simp only [step] at hstep
    split_ifs at hstep with hphase
    cases hstep
    exact .onResponseSent hphase
  | error =>
    simp only [step] at hstep
    split_ifs at hstep with hphase
    cases hstep
    exact .error (fun h => hphase (Or.inl h)) fun h => hphase (Or.inr h)

/-- The session handles its request. -/
def onRequestReceived (P : Platform) (opened : SnapshotStreams) (store : Store) (p : Served) : Served :=
  { p with
    session := (p.session.onRequestReceived P opened store).1
    outgoing := p.outgoing ++ ((p.session.onRequestReceived P opened store).2.map Response.serialize).getD [] }

end Served

namespace Server

variable [DecidableEq Cid]

/-- A handler that does not get to its response ends the server. -/
def onRequestReceived (P : Platform) (s : Server Cid) (c : Cid) (opened : SnapshotStreams) : Server Cid :=
  let p := (s.served c).onRequestReceived P opened s.store
  { store := storeAfter P opened s.store (s.served c).session.reader.buffer
    alive := decide (p.session.phase = .writing)
    served := Function.update s.served c p
    calls := s.calls ++ (p.session.handled.drop (s.served c).session.handled.length).map fun call =>
      ⟨c, opened, call.1, call.2⟩ }

/-- A step of the server, where it is possible. -/
def step (P : Platform) (s : Server Cid) : Cid × PeerEvent → Option (Server Cid)
  | (c, .onRequestReceived opened) =>
    if s.alive ∧ (s.served c).session.Ready then some (s.onRequestReceived P c opened) else none
  | (c, event) =>
    if event.ofServer && !s.alive then none
    else ((s.served c).step event).map fun p => { s with served := Function.update s.served c p }

/-- An event that is not possible changes nothing. -/
def next (P : Platform) (s : Server Cid) (event : Cid × PeerEvent) : Server Cid := (step P s event).getD s

/-- What a step does. -/
inductive Steps (P : Platform) (s : Server Cid) : Cid × PeerEvent → Server Cid → Prop where
  | onRequestReceived {c : Cid} {opened : SnapshotStreams} (halive : s.alive = true)
      (hready : (s.served c).session.Ready) :
      Steps P s (c, .onRequestReceived opened) (s.onRequestReceived P c opened)
  | connection {c : Cid} {event : PeerEvent} {p : Served} (hserver : event.ofServer = true → s.alive = true)
      (hp : (s.served c).step event = some p) :
      Steps P s (c, event) { s with served := Function.update s.served c p }

theorem step_cases {P : Platform} {s s' : Server Cid} {event : Cid × PeerEvent} (hstep : s.step P event = some s') :
    Steps P s event s' := by
  obtain ⟨c, event⟩ := event
  cases event with
  | onRequestReceived opened =>
    simp only [step] at hstep
    split_ifs at hstep with hcond
    cases hstep
    exact .onRequestReceived hcond.1 hcond.2
  | _ =>
    simp only [step] at hstep
    split_ifs at hstep with hcond
    obtain ⟨p, hp, rfl⟩ := Option.map_eq_some_iff.mp hstep
    refine .connection (fun hserver => ?_) hp
    simpa [hserver] using hcond

/-- Nothing is left to do before a peer sends more or an operation fails. -/
def AtRest (P : Platform) (s : Server Cid) : Prop :=
  ∀ c, ∀ event : PeerEvent, event.isError = false → event.isSend = false → step P s (c, event) = none

end Server

/-! ### One connection -/

/-- What a session writes back behind a call. -/
def sentBack : Except Fault Response → List UInt8
  | .ok response => response.serialize
  | .error _ => []

/-- What was taken from the connection is the frame, it is parsed to the request, and the response is written. -/
structure Answered (p : Served) (frame : Frame) (request : Request) (result : Except Fault Response) : Prop where
  taken : p.incoming.taken = frame.bytes
  handled : p.session.handled = [(request, result)]
  parsed : (Request.make .Get ⟨0⟩ ByteString.empty).deserialize frame.bytes = .ok request
  outgoing : p.outgoing = sentBack result

/-- A session reads its first frame, and not more; it has handled nothing, or this frame. -/
structure PeerInv (p : Served) : Prop where
  reads : p.session.phase = .created ∨ p.session.phase = .reading →
    ReadsFrom p.session.reader p.incoming ∧ p.session.handled = [] ∧ p.outgoing = []
  bounded : p.incoming.taken.length ≤ 4 + (contentLengthOf (p.incoming.taken.take 4)).toNat
  handled : p.session.handled = [] ∧ p.outgoing = [] ∨ ∃ frame request result, Answered p frame request result

theorem peerInv_initial : PeerInv {} where
  reads _ := ⟨Reader.reads_initial, rfl, rfl⟩
  bounded := Nat.zero_le _
  handled := Or.inl ⟨rfl, rfl⟩

namespace PeerInv

variable {p : Served} (h : PeerInv p)
include h

theorem incoming {incoming : Channel UInt8} (htaken : incoming.taken = p.incoming.taken)
    (hreads : ∀ reader, ReadsFrom reader p.incoming → ReadsFrom reader incoming) :
    PeerInv { p with incoming := incoming } where
  reads hphase := ⟨hreads _ (h.reads hphase).1, (h.reads hphase).2⟩
  bounded := by
    show incoming.taken.length ≤ 4 + (contentLengthOf (incoming.taken.take 4)).toNat
    rw [htaken]
    exact h.bounded
  handled := by
    rcases h.handled with hnothing | ⟨frame, request, result, hanswered⟩
    · exact Or.inl hnothing
    · exact Or.inr ⟨frame, request, result, htaken.trans hanswered.taken, hanswered.handled, hanswered.parsed,
        hanswered.outgoing⟩

theorem leave {phase : ServerPhase} (hphase : phase = .writing ∨ phase = .finished) :
    PeerInv { p with session := { p.session with phase := phase } } where
  reads hread := by
    have hread' : phase = .created ∨ phase = .reading := hread
    rcases hphase with rfl | rfl
    · simp at hread'
    · simp at hread'
  bounded := h.bounded
  handled := by
    rcases h.handled with hnothing | ⟨frame, request, result, hanswered⟩
    · exact Or.inl hnothing
    · exact Or.inr ⟨frame, request, result, hanswered.taken, hanswered.handled, hanswered.parsed, hanswered.outgoing⟩

theorem read {session : ServerSession} {incoming : Channel UInt8} (hphase : p.session.phase = .reading)
    (hhandled : session.handled = p.session.handled) (hreads : ReadsFrom session.reader incoming) :
    PeerInv { p with session := session, incoming := incoming } where
  reads _ := ⟨hreads, hhandled.trans (h.reads (Or.inr hphase)).2.1, (h.reads (Or.inr hphase)).2.2⟩
  bounded := by
    have hbounded := hreads.bounded
    rw [hreads.buffer] at hbounded
    exact hbounded
  handled := Or.inl ⟨hhandled.trans (h.reads (Or.inr hphase)).2.1, (h.reads (Or.inr hphase)).2.2⟩

theorem step {event : PeerEvent} {p' : Served} (hstep : p.step event = some p') : PeerInv p' := by
  cases Served.step_cases hstep with
  | @send bytes => exact h.incoming (Channel.taken_write _ _) fun reader hreads => hreads.write bytes
  | deliver hdeliver => exact h.incoming (Channel.deliver_eq hdeliver).2 fun reader hreads => hreads.deliver hdeliver
  | accept hphase => exact ⟨fun _ => h.reads (Or.inl hphase), h.bounded, Or.inl (h.reads (Or.inl hphase)).2⟩
  | receive hphase hle htake => exact h.read hphase rfl ((h.reads (Or.inr hphase)).1.receive htake hle)
  | onContentLengthReceived hphase hcontent hremaining =>
    exact h.read hphase rfl ((h.reads (Or.inr hphase)).1.expect hcontent hremaining)
  | onResponseSent hphase => exact h.leave (Or.inr rfl)
  | error haccepted hphase => exact h.leave (Or.inr rfl)

/-- A session that is through has read a frame, and its request is what this is parsed to. -/
theorem onRequestReceived (P : Platform) (opened : SnapshotStreams) (store : Store) (hready : p.session.Ready) :
    ∃ frame request, p.session.reader.buffer = frame.bytes ∧
      storeAfter P opened store p.session.reader.buffer = (handle P opened store request).1 ∧
      Answered (p.onRequestReceived P opened store) frame request (handle P opened store request).2 ∧
      ((p.onRequestReceived P opened store).session.phase = .writing ∧
          (∃ response, (handle P opened store request).2 = .ok response) ∨
        (p.onRequestReceived P opened store).session.phase = .finished ∧
          ∃ fault, (handle P opened store request).2 = .error fault) := by
  obtain ⟨hphase, hcontent, hremaining⟩ := hready
  obtain ⟨hreads, hnil, hnothing⟩ := h.reads (Or.inr hphase)
  obtain ⟨frame, hframe⟩ := exists_frame (hreads.framed hcontent hremaining)
  obtain ⟨key, value, hparse⟩ := deserialize_frame frame
  refine ⟨frame, ⟨frame.contentLength, ⟨frame.content.headD 0⟩, key, value⟩, hframe.symm, ?_, ?_⟩
  · unfold storeAfter
    rw [← hframe, hparse]
  · have htaken : p.incoming.taken = frame.bytes := by rw [hframe, hreads.buffer]
    unfold Served.onRequestReceived ServerSession.onRequestReceived ServerSession.processRequest
    rw [← hframe, hparse]
    dsimp only
    cases (handle P opened store ⟨frame.contentLength, ⟨frame.content.headD 0⟩, key, value⟩).2 with
    | error fault =>
      exact ⟨⟨htaken, congrArg (· ++ _) hnil, hparse, by rw [hnothing]; rfl⟩, Or.inr ⟨rfl, fault, rfl⟩⟩
    | ok response =>
      exact ⟨⟨htaken, congrArg (· ++ _) hnil, hparse, by rw [hnothing]; rfl⟩, Or.inl ⟨rfl, response, rfl⟩⟩

end PeerInv

theorem Served.handled_step {p p' : Served} {event : PeerEvent} (hstep : p.step event = some p') :
    p'.session.handled = p.session.handled := by
  cases Served.step_cases hstep with
  | _ => rfl

/-! ### Runs -/

/-- The store behind the calls. -/
def storeBehind (P : Platform) (initial : Store) (calls : List (HandleCall Cid)) : Store :=
  calls.foldl (fun store call => (handle P call.opened store call.request).1) initial

theorem storeBehind_append (P : Platform) (initial : Store) (calls : List (HandleCall Cid)) (call : HandleCall Cid) :
    storeBehind P initial (calls ++ [call])
      = (handle P call.opened (storeBehind P initial calls) call.request).1 := by
  rw [storeBehind, List.foldl_append]
  rfl

/-- The calls of a connection. -/
def callsOf [DecidableEq Cid] (c : Cid) (calls : List (HandleCall Cid)) : List (Request × Except Fault Response) :=
  (calls.filter fun call => call.peer = c).map fun call => (call.request, call.result)

theorem callsOf_append [DecidableEq Cid] (c : Cid) (calls : List (HandleCall Cid)) (call : HandleCall Cid) :
    callsOf c (calls ++ [call]) = callsOf c calls ++ if call.peer = c then [(call.request, call.result)] else [] := by
  unfold callsOf
  rw [List.filter_append, List.map_append, List.filter_singleton]
  by_cases heq : call.peer = c
  · simp [heq]
  · simp [heq]

section runs

variable [DecidableEq Cid] {P : Platform} {initial : Store} {s s' : Server Cid} {c : Cid}

/-- The calls are made one after another, each by one of the connections, and the server runs if they all returned. -/
structure ServerInv (P : Platform) (initial : Store) (s : Server Cid) : Prop where
  peers : ∀ c, PeerInv (s.served c)
  handled : ∀ c, (s.served c).session.handled = callsOf c s.calls
  store : s.store = storeBehind P initial s.calls
  results : ∀ before call after, s.calls = before ++ call :: after →
    call.result = (handle P call.opened (storeBehind P initial before) call.request).2
  alive : s.alive = true ↔ ∀ call ∈ s.calls, ∃ response, call.result = .ok response

theorem serverInv_initial (P : Platform) (initial : Store) :
    ServerInv P initial ({ store := initial } : Server Cid) where
  peers _ := peerInv_initial
  handled _ := rfl
  store := rfl
  results before call after hsplit := absurd hsplit.symm (by simp)
  alive := iff_of_true rfl fun call hcall => absurd hcall List.not_mem_nil

theorem ServerInv.connection (h : ServerInv P initial s) {event : PeerEvent} {p : Served}
    (hstep : (s.served c).step event = some p) :
    ServerInv P initial { s with served := Function.update s.served c p } := by
  refine ⟨?_, ?_, h.store, h.results, h.alive⟩
  · exact (Function.forall_update_iff s.served (p := fun _ => PeerInv)).mpr
      ⟨(h.peers c).step hstep, fun c' _ => h.peers c'⟩
  · refine (Function.forall_update_iff s.served (p := fun c' p => p.session.handled = callsOf c' s.calls)).mpr
      ⟨?_, fun c' _ => h.handled c'⟩
    rw [Served.handled_step hstep]
    exact h.handled c

theorem ServerInv.onRequestReceived (h : ServerInv P initial s) (halive : s.alive = true) (opened : SnapshotStreams)
    (hready : (s.served c).session.Ready) :
    ∃ frame request, Answered ((s.served c).onRequestReceived P opened s.store) frame request
        (handle P opened s.store request).2 ∧
      ServerInv P initial (s.onRequestReceived P c opened) := by
  obtain ⟨frame, request, hbuffer, hstore, hanswered, hphase⟩ := (h.peers c).onRequestReceived P opened s.store hready
  refine ⟨frame, request, hanswered, ?_⟩
  have hnil : (s.served c).session.handled = [] := ((h.peers c).reads (Or.inr hready.1)).2.1
  have hcalls : (s.onRequestReceived P c opened).calls
      = s.calls ++ [⟨c, opened, request, (handle P opened s.store request).2⟩] := by
    unfold Server.onRequestReceived
    dsimp only
    rw [hanswered.handled, hnil]
    rfl
  have hpeer : PeerInv ((s.served c).onRequestReceived P opened s.store) := by
    refine ⟨?_, (h.peers c).bounded, Or.inr ⟨frame, request, _, hanswered⟩⟩
    intro hread
    rcases hphase with ⟨hwriting, -⟩ | ⟨hfinished, -⟩
    · rw [hwriting] at hread
      simp at hread
    · rw [hfinished] at hread
      simp at hread
  refine ⟨?_, ?_, ?_, ?_, ?_⟩
  · exact (Function.forall_update_iff s.served (p := fun _ => PeerInv)).mpr ⟨hpeer, fun c' _ => h.peers c'⟩
  · rw [hcalls]
    refine (Function.forall_update_iff s.served (p := fun c' p => p.session.handled = callsOf c' (s.calls ++ _))).mpr
      ⟨?_, ?_⟩
    · rw [callsOf_append, ← h.handled c, hnil, if_pos rfl, hanswered.handled]
      rfl
    · intro c' hne
      rw [callsOf_append, ← h.handled c', if_neg (Ne.symm hne), List.append_nil]
  · rw [hcalls, storeBehind_append, ← h.store]
    exact hstore
  · intro before call after hsplit
    rw [hcalls] at hsplit
    rcases List.eq_nil_or_concat' after with rfl | ⟨after', last, rfl⟩
    · obtain ⟨rfl, hcall⟩ := List.append_inj' hsplit rfl
      rw [← (List.cons.inj hcall).1, ← h.store]
    · rw [← List.cons_append, ← List.append_assoc] at hsplit
      exact h.results before call after' (List.append_inj' hsplit rfl).1
  · rw [hcalls]
    show decide (((s.served c).onRequestReceived P opened s.store).session.phase = .writing) = true ↔ _
    rw [decide_eq_true_iff, List.forall_mem_append, List.forall_mem_singleton]
    have hbefore := h.alive.mp halive
    rcases hphase with ⟨hwriting, hresponse⟩ | ⟨hfinished, fault, hfault⟩
    · exact iff_of_true hwriting ⟨hbefore, hresponse⟩
    · rw [hfinished, hfault]
      simp

theorem ServerInv.step (h : ServerInv P initial s) {event : Cid × PeerEvent} (hstep : s.step P event = some s') :
    ServerInv P initial s' := by
  cases Server.step_cases hstep with
  | @onRequestReceived c opened halive hready =>
    obtain ⟨frame, request, -, hinv⟩ := h.onRequestReceived halive opened hready
    exact hinv
  | connection hserver hp => exact h.connection hp

theorem serverInv_run (P : Platform) (initial : Store) (events : List (Cid × PeerEvent)) :
    ServerInv P initial (Runs.run (Server.next P) { store := initial } events) := by
  refine Runs.run_inv (ServerInv P initial) ?_ (Runs.Meets.of_forall (Server.next P) _ fun _ _ => trivial)
    (serverInv_initial P initial)
  intro s event h _
  unfold Server.next
  cases hstep : s.step P event with
  | none => exact h
  | some s' => exact h.step hstep

/-- Whatever the peers send, a session takes nothing behind the first frame of its connection, and has handled nothing
and written nothing or has handled the request this frame is parsed to and written its response. The store is what the
calls of all sessions leave one after another, and the server runs if and only if each of them returned. -/
theorem first_frames_served (P : Platform) (initial : Store) (events : List (Cid × PeerEvent)) :
    let s := Runs.run (Server.next P) { store := initial } events
    (∀ c, (s.served c).session.handled = [] ∧ (s.served c).outgoing = [] ∨
        ∃ frame request result, Answered (s.served c) frame request result) ∧
      (∀ c (frame : Frame), frame.bytes <+: (s.served c).incoming.written →
        (s.served c).incoming.consumed ≤ frame.bytes.length) ∧
      (∀ c, (s.served c).session.handled = callsOf c s.calls) ∧
      s.store = storeBehind P initial s.calls ∧
      (∀ before call after, s.calls = before ++ call :: after →
        call.result = (handle P call.opened (storeBehind P initial before) call.request).2) ∧
      (s.alive = true ↔ ∀ call ∈ s.calls, ∃ response, call.result = .ok response) := by
  intro s
  have hinv : ServerInv P initial s := serverInv_run P initial events
  refine ⟨fun c => (hinv.peers c).handled, ?_, hinv.handled, hinv.store, hinv.results, hinv.alive⟩
  intro c frame hfront
  exact Reader.consumed_le_of_framed (hinv.peers c).bounded (framed_frame frame) hfront

end runs

/-! ### Coming to rest -/

def Served.handlersLeft (p : Served) : Nat := p.session.handlersLeft

def Served.bytesLeft (p : Served) : Nat := p.incoming.left

theorem Served.step_decreases {p p' : Served} {event : PeerEvent} (herror : event.isError = false)
    (hsend : event.isSend = false) (hstep : p.step event = some p') :
    p'.handlersLeft < p.handlersLeft ∨ p'.handlersLeft = p.handlersLeft ∧ p'.bytesLeft < p.bytesLeft := by
  cases Served.step_cases hstep with
  | send => cases hsend
  | error haccepted hphase => cases herror
  | deliver hdeliver => exact Or.inr ⟨rfl, Channel.left_deliver hdeliver⟩
  | receive hphase hle htake => exact Or.inr ⟨rfl, Channel.left_take htake⟩
  | accept hphase =>
    refine Or.inl ?_
    simp only [Served.handlersLeft, ServerSession.handlersLeft, hphase]
    split <;> omega
  | onContentLengthReceived hphase hcontent hremaining =>
    refine Or.inl ?_
    simp [Served.handlersLeft, ServerSession.handlersLeft, ServerSession.onContentLengthReceived, Reader.expect, hphase,
      hcontent]
  | onResponseSent hphase =>
    refine Or.inl ?_
    simp [Served.handlersLeft, ServerSession.handlersLeft, hphase]

theorem Served.handlersLeft_onRequestReceived {P : Platform} {opened : SnapshotStreams} {store : Store} {p : Served}
    (hready : p.session.Ready) :
    (p.onRequestReceived P opened store).handlersLeft < p.handlersLeft := by
  have hbefore : p.handlersLeft = 2 := by
    simp [Served.handlersLeft, ServerSession.handlersLeft, hready.1, hready.2.1]
  rw [hbefore]
  exact Nat.lt_succ_of_le (p.session.handlersLeft_onRequestReceived P opened store)

theorem Server.descends [Fintype Cid] [DecidableEq Cid] (P : Platform) :
    Runs.Descends (Server.step P) (fun event : Cid × PeerEvent => event.2.isError = false ∧ event.2.isSend = false)
      (fun _ => True) (· < ·) fun s : Server Cid =>
        toLex (∑ c, (s.served c).handlersLeft, ∑ c, (s.served c).bytesLeft) where
  wf := wellFounded_lt
  step {s s' event} _ hordinary hstep := by
    refine ⟨trivial, ?_⟩
    cases Server.step_cases hstep with
    | onRequestReceived halive hready =>
      rw [Prod.Lex.toLex_lt_toLex]
      exact Or.inl (sum_update_lt (Served.handlersLeft_onRequestReceived hready))
    | connection hserver hp =>
      rw [Prod.Lex.toLex_lt_toLex]
      rcases Served.step_decreases hordinary.1 hordinary.2 hp with hhandlers | ⟨heq, hbytes⟩
      · exact Or.inl (sum_update_lt hhandlers)
      · exact Or.inr ⟨sum_update_eq heq, sum_update_lt hbytes⟩

section rest

variable [DecidableEq Cid] {P : Platform} {initial : Store} {s s' : Server Cid} {c : Cid}

/-- Without errors a session leaves its reading only with a request that it handled. -/
def Undeterred (p : Served) : Prop :=
  p.session.phase = .writing ∨ p.session.phase = .finished → p.session.handled ≠ []

theorem Undeterred.step {p p' : Served} (h : Undeterred p) {event : PeerEvent} (herror : event.isError = false)
    (hstep : p.step event = some p') : Undeterred p' := by
  intro hphase'
  rw [Served.handled_step hstep]
  cases Served.step_cases hstep with
  | accept hphase => simp at hphase'
  | onResponseSent hphase => exact h (Or.inl hphase)
  | error haccepted hphase => cases herror
  | _ => exact h hphase'

theorem undeterred_next (hinv : ServerInv P initial s) (h : ∀ c, Undeterred (s.served c)) {event : Cid × PeerEvent}
    (herror : event.2.isError = false) (hstep : s.step P event = some s') (c : Cid) : Undeterred (s'.served c) := by
  revert c
  cases Server.step_cases hstep with
  | @onRequestReceived c' opened halive hready =>
    obtain ⟨frame, request, hanswered, -⟩ := hinv.onRequestReceived halive opened hready
    refine (Function.forall_update_iff s.served (p := fun _ => Undeterred)).mpr ⟨?_, fun c _ => h c⟩
    intro _ hnil
    rw [hanswered.handled] at hnil
    cases hnil
  | @connection c' event p hserver hp =>
    exact (Function.forall_update_iff s.served (p := fun _ => Undeterred)).mpr
      ⟨(h c').step herror hp, fun c _ => h c⟩

/-- A connection at rest is through, or waits for more than was sent. -/
theorem Server.AtRest.phase (h : s.AtRest P) (halive : s.alive = true) (c : Cid) :
    (s.served c).session.phase = .finished ∨ (s.served c).session.phase = .reading ∧
      (s.served c).session.reader.remaining ≠ 0 ∧ (s.served c).incoming.taken = (s.served c).incoming.written := by
  have hstep : ∀ event : PeerEvent, event.isError = false → event.isSend = false →
      (s.served c).step event = none := by
    intro event herror hsend
    cases event with
    | onRequestReceived opened => rfl
    | _ => simpa [Server.step, halive] using h c _ herror hsend
  cases hphase : (s.served c).session.phase with
  | created =>
    have hnone := hstep .accept rfl rfl
    simp [Served.step, hphase] at hnone
  | writing =>
    have hnone := hstep .onResponseSent rfl rfl
    simp [Served.step, hphase] at hnone
  | finished => exact Or.inl rfl
  | reading =>
    have hremaining : (s.served c).session.reader.remaining ≠ 0 := by
      intro hzero
      cases hcontent : (s.served c).session.reader.content with
      | false =>
        have hnone := hstep .onContentLengthReceived rfl rfl
        simp [Served.step, hphase, hcontent, hzero] at hnone
      | true =>
        have hnone := h c (.onRequestReceived {}) rfl rfl
        simp only [Server.step] at hnone
        split_ifs at hnone with hcond
        exact hcond ⟨halive, hphase, hcontent, hzero⟩
    refine Or.inr ⟨rfl, hremaining, Channel.taken_eq_written ?_ ?_⟩
    · exact Option.map_eq_none_iff.mp (hstep (.deliver 1) rfl rfl)
    · have hnone := hstep (.receive 1) rfl rfl
      simp only [Served.step] at hnone
      rw [if_pos ⟨hphase, Nat.one_le_iff_ne_zero.mpr hremaining⟩] at hnone
      exact Option.map_eq_none_iff.mp hnone

end rest

/-- The bytes of the peer begin with a whole frame, and the session is through with it. -/
def AnsweredFirst (p : Served) : Prop :=
  p.session.phase = .finished ∧ ∃ (frame : Frame) (request : Request) (response : Response),
    frame.bytes <+: p.incoming.written ∧ Answered p frame request (.ok response)

/-- The bytes of the peer do not begin with a whole frame, and the session waits for more. -/
structure WaitsForFrame (p : Served) : Prop where
  phase : p.session.phase = .reading
  unframed : ∀ frame : Frame, ¬ frame.bytes <+: p.incoming.written
  taken : p.incoming.taken = p.incoming.written
  handled : p.session.handled = []
  outgoing : p.outgoing = []

/-- Finitely many connections come to rest from every state, by steps without errors and without more bytes from the
peers. After a run without errors that has come to rest while the server runs, exactly the connections whose bytes begin
with a whole frame have an answer; the sessions of the others wait, and go on waiting. -/
theorem served_iff_frame [Fintype Cid] [DecidableEq Cid] (P : Platform) (initial : Store)
    (events : List (Cid × PeerEvent)) :
    let s := Runs.run (Server.next P) { store := initial } events
    (∃ more : List (Cid × PeerEvent), (∀ event ∈ more, event.2.isError = false ∧ event.2.isSend = false) ∧
        (Runs.run (Server.next P) s more).AtRest P) ∧
      ((∀ event ∈ events, event.2.isError = false) → s.AtRest P → s.alive = true →
        ∀ c, AnsweredFirst (s.served c) ∨ WaitsForFrame (s.served c)) := by
  intro s
  obtain ⟨more, hmore, hrest⟩ := (Server.descends P).exists_rest (s := s) trivial
  refine ⟨⟨more, hmore, fun c event herror hsend => hrest (c, event) ⟨herror, hsend⟩⟩, ?_⟩
  intro hevents hrest halive c
  obtain ⟨hinv, hundeterred⟩ : ServerInv P initial s ∧ ∀ c, Undeterred (s.served c) := by
    refine Runs.run_inv (fun s : Server Cid => ServerInv P initial s ∧ ∀ c, Undeterred (s.served c)) ?_
      (Runs.Meets.of_forall (Server.next P) _ hevents) ⟨serverInv_initial P initial, fun c hphase => ?_⟩
    · rintro s event ⟨hinv, hundeterred⟩ herror
      unfold Server.next
      cases hstep : s.step P event with
      | none => exact ⟨hinv, hundeterred⟩
      | some s' => exact ⟨hinv.step hstep, undeterred_next hinv hundeterred herror hstep⟩
    · simp at hphase
  have hpeer := hinv.peers c
  rcases hrest.phase halive c with hfinished | ⟨hreading, hremaining, htaken⟩
  · rcases hpeer.handled with ⟨hnil, -⟩ | ⟨frame, request, result, hanswered⟩
    · exact absurd hnil (hundeterred c (Or.inr hfinished))
    · have hcall : (request, result) ∈ callsOf c s.calls := by
        rw [← hinv.handled c, hanswered.handled]
        exact List.mem_singleton_self _
      obtain ⟨call, hmem, heq⟩ := List.mem_map.mp hcall
      obtain ⟨response, hresponse⟩ := hinv.alive.mp halive call (List.mem_of_mem_filter hmem)
      have hresult : result = .ok response := (Prod.mk.inj heq).2.symm.trans hresponse
      subst hresult
      refine Or.inl ⟨hfinished, frame, request, response, ?_, hanswered⟩
      rw [← hanswered.taken]
      exact List.take_prefix _ _
  · obtain ⟨hreads, hnil, hnothing⟩ := hpeer.reads (Or.inr hreading)
    refine Or.inr ⟨hreading, ?_, htaken, hnil, hnothing⟩
    rintro frame ⟨tail, htail⟩
    exact hremaining (hreads.remaining_eq_zero (framed_frame frame) htail.symm htaken)

theorem Server.atRest_of_sessions [DecidableEq Cid] {P : Platform} {s : Server Cid}
    (harrived : ∀ c, (s.served c).incoming.arrived = (s.served c).incoming.written.length)
    (hsession : ∀ c, (s.served c).session.phase = .finished ∨ (s.served c).session.phase = .reading ∧
      (s.served c).session.reader.remaining ≠ 0 ∧ (s.served c).incoming.consumed = (s.served c).incoming.arrived) :
    s.AtRest P := by
  have hnone : ∀ c, ∀ event : PeerEvent, event.isError = false → event.isSend = false →
      (s.served c).step event = none := by
    intro c event herror hsend
    cases event with
    | send bytes => cases hsend
    | error => cases herror
    | onRequestReceived opened => rfl
    | deliver numBytes =>
      have hall := harrived c
      refine Option.map_eq_none_iff.mpr (dif_neg ?_)
      omega
    | receive numBytes =>
      refine ite_eq_right_iff.mpr fun hcond => Option.map_eq_none_iff.mpr (dif_neg ?_)
      rcases hsession c with hfinished | ⟨-, -, hconsumed⟩
      · rw [hfinished] at hcond
        cases hcond.1
      · omega
    | _ => rcases hsession c with hfinished | ⟨hreading, hremaining, -⟩ <;> simp_all [Served.step]
  intro c event herror hsend
  cases event with
  | onRequestReceived opened =>
    refine if_neg fun hcond => ?_
    obtain ⟨-, hphase, -, hzero⟩ := hcond
    rcases hsession c with hfinished | ⟨-, hremaining, -⟩
    · rw [hfinished] at hphase
      cases hphase
    · exact hremaining hzero
  | _ => simp only [Server.step, hnone c _ herror hsend, Option.map_none, ite_self]

/-- One peer sends a frame of one byte and two bytes more, the other a part of a length. -/
def frameAndPart : List (Bool × PeerEvent) :=
  [(false, .send [1, 0, 0, 0, 1, 7, 7]), (true, .send [1, 0, 0]), (true, .accept), (false, .deliver 7),
    (false, .accept), (false, .receive 4), (false, .onContentLengthReceived), (true, .deliver 3), (false, .receive 1),
    (false, .onRequestReceived {}), (true, .receive 3), (false, .onResponseSent)]

theorem served_iff_frame_part :
    AnsweredFirst ((Runs.run (Server.next plainPlatform) { store := freshSession.store } frameAndPart).served false) ∧
      WaitsForFrame
        ((Runs.run (Server.next plainPlatform) { store := freshSession.store } frameAndPart).served true) := by
  have hrest : (Runs.run (Server.next plainPlatform) { store := freshSession.store } frameAndPart).AtRest
      plainPlatform := by
    apply Server.atRest_of_sessions (by decide +kernel)
    intro c
    cases c with
    | false => exact Or.inl (by decide +kernel)
    | true => exact Or.inr (by decide +kernel)
  have hall := (served_iff_frame plainPlatform freshSession.store frameAndPart).2 (by decide) hrest (by decide +kernel)
  refine ⟨(hall false).resolve_right fun hwaits => ?_, (hall true).resolve_left fun hanswered => ?_⟩
  · exact absurd hwaits.phase (by decide +kernel)
  · exact absurd hanswered.1 (by decide +kernel)

end Networking

end OmxDb
