import OmxDb.Frames
import OmxDb.ServiceRuns

/-!
# The life of a connector

`DatabaseConnectorImpl` runs the handlers of its sessions on one thread, from its constructor to its destructor, which
stops the service, joins the thread and destroys the handlers that are left, with their sessions and promises. The
servers are any peers that send any bytes. A future of `execute` gets ready at most once and then stays as it is, no
handler ends the program, and behind the destructor every future is ready (`futures_settle`). Without errors a request
has its value exactly where the bytes of its server begin with a whole frame; the future of any other waits for
the destructor (`value_iff_frame`).
-/

namespace OmxDb

namespace Networking

open LittleEndian Framing

variable {Cid : Type*}

/-! ### The connector -/

/-- A request with its session, what was handed to the socket and what the server sends. A promise is `broken` where it
was destroyed without having been set. -/
structure Requested where
  request : Request
  session : ClientSession := {}
  outgoing : List UInt8 := []
  incoming : Channel UInt8 := {}
  broken : Bool := false

/-- `onSend` ends a send of so many bytes; `send` is what the server does. -/
inductive RequestedEvent where
  | onResolve
  | onConnect
  | onSend (numBytes : Nat)
  | receive (numBytes : Nat)
  | onContentLengthReceive
  | onReceive
  | error (message : String)
  | send (bytes : List UInt8)
  | deliver (numBytes : Nat)

/-- The network can move bytes when the thread does not run. -/
def RequestedEvent.ofClient : RequestedEvent → Bool
  | .send _ => false
  | .deliver _ => false
  | _ => true

/-- What the caller of `execute` holds. -/
inductive Future where
  | pending
  | ready (result : Except String Response)
  | broken

namespace Requested

/-- A handler of the session is left, which holds it. -/
def Awaits (r : Requested) : Prop := r.session.phase ≠ .created ∧ r.session.phase ≠ .finished

instance (r : Requested) : Decidable r.Awaits :=
  inferInstanceAs (Decidable (r.session.phase ≠ .created ∧ r.session.phase ≠ .finished))

def future (r : Requested) : Future :=
  match r.session.promise with
  | result :: _ => .ready result
  | [] => if r.broken then .broken else .pending

/-- The handler ends with an exception, which leaves the function of the thread. -/
def throws (r : Requested) : RequestedEvent → Bool
  | .onReceive =>
    match (Response.make .UnknownError ByteString.empty).deserialize r.session.reader.buffer with
    | .error _ => true
    | .ok _ => false
  | _ => false

def step (r : Requested) : RequestedEvent → Option Requested
  | .onResolve =>
    if r.session.phase = .resolving then some { r with session := { r.session with phase := .connecting } } else none
  | .onConnect =>
    if r.session.phase = .connecting then some { r with session := { r.session with phase := .sending } } else none
  | .onSend numBytes =>
    if r.session.phase = .sending ∧ numBytes ≤ r.request.serialize.length then
      some { r with
        session := { r.session with phase := .reading }
        outgoing := r.outgoing ++ r.request.serialize.take numBytes }
    else none
  | .receive numBytes =>
    if r.session.phase = .reading ∧ numBytes ≤ r.session.reader.remaining then
      (r.incoming.take numBytes).map fun (bytes, incoming) =>
        { r with session := { r.session with reader := r.session.reader.receive bytes }, incoming := incoming }
    else none
  | .onContentLengthReceive =>
    if r.session.phase = .reading ∧ r.session.reader.content = false ∧ r.session.reader.remaining = 0 then
      some { r with session := r.session.onContentLengthReceive }
    else none
  | .onReceive =>
    if r.session.phase = .reading ∧ r.session.reader.content = true ∧ r.session.reader.remaining = 0 then
      some { r with session := r.session.onReceive }
    else none
  | .error message => if r.Awaits then some { r with session := r.session.onError message } else none
  | .send bytes => some { r with incoming := r.incoming.write bytes }
  | .deliver numBytes => (r.incoming.deliver numBytes).map fun incoming => { r with incoming := incoming }

/-- What a step does. -/
inductive Steps (r : Requested) : RequestedEvent → Requested → Prop where
  | onResolve (hphase : r.session.phase = .resolving) :
      Steps r .onResolve { r with session := { r.session with phase := .connecting } }
  | onConnect (hphase : r.session.phase = .connecting) :
      Steps r .onConnect { r with session := { r.session with phase := .sending } }
  | onSend {numBytes : Nat} (hphase : r.session.phase = .sending) (hle : numBytes ≤ r.request.serialize.length) :
      Steps r (.onSend numBytes) { r with
        session := { r.session with phase := .reading }
        outgoing := r.outgoing ++ r.request.serialize.take numBytes }
  | receive {numBytes : Nat} {bytes : List UInt8} {incoming : Channel UInt8} (hphase : r.session.phase = .reading)
      (hle : numBytes ≤ r.session.reader.remaining) (htake : r.incoming.take numBytes = some (bytes, incoming)) :
      Steps r (.receive numBytes)
        { r with session := { r.session with reader := r.session.reader.receive bytes }, incoming := incoming }
  | onContentLengthReceive (hphase : r.session.phase = .reading) (hcontent : r.session.reader.content = false)
      (hremaining : r.session.reader.remaining = 0) :
      Steps r .onContentLengthReceive { r with session := r.session.onContentLengthReceive }
  | onReceive (hphase : r.session.phase = .reading) (hcontent : r.session.reader.content = true)
      (hremaining : r.session.reader.remaining = 0) :
      Steps r .onReceive { r with session := r.session.onReceive }
  | error {message : String} (hawaits : r.Awaits) :
      Steps r (.error message) { r with session := r.session.onError message }
  | send {bytes : List UInt8} : Steps r (.send bytes) { r with incoming := r.incoming.write bytes }
  | deliver {numBytes : Nat} {incoming : Channel UInt8} (hdeliver : r.incoming.deliver numBytes = some incoming) :
      Steps r (.deliver numBytes) { r with incoming := incoming }

theorem step_cases {r r' : Requested} {event : RequestedEvent} (hstep : r.step event = some r') :
    Steps r event r' := by
  cases event with
  | onSend numBytes =>
    simp only [step] at hstep
    split_ifs at hstep with hcond
    cases hstep
    exact .onSend hcond.1 hcond.2
  | receive numBytes =>
    simp only [step] at hstep
    split_ifs at hstep with hcond
    obtain ⟨⟨bytes, incoming⟩, htake, rfl⟩ := Option.map_eq_some_iff.mp hstep
    exact .receive hcond.1 hcond.2 htake
  | onContentLengthReceive =>
    simp only [step] at hstep
    split_ifs at hstep with hcond
    cases hstep
    exact .onContentLengthReceive hcond.1 hcond.2.1 hcond.2.2
  | onReceive =>
    simp only [step] at hstep
    split_ifs at hstep with hcond
    cases hstep
    exact .onReceive hcond.1 hcond.2.1 hcond.2.2
  | send bytes =>
    cases hstep
    exact .send
  | deliver numBytes =>
    obtain ⟨incoming, hdeliver, rfl⟩ := Option.map_eq_some_iff.mp hstep
    exact .deliver hdeliver
  | _ =>
    simp only [step] at hstep
    split_ifs at hstep with hguard
    cases hstep
    constructor
    exact hguard

end Requested

/-- The thread runs until the destructor, unless a handler ends the program. -/
structure Connector (Cid : Type*) where
  running : Bool := true
  terminated : Bool := false
  requested : Cid → Option Requested := fun _ => none

inductive ConnectorEvent (Cid : Type*) where
  | execute (c : Cid) (request : Request) (throws : Option String)
  | requested (c : Cid) (event : RequestedEvent)
  | destroy

namespace Connector

variable [DecidableEq Cid]

/-- A session that was run; what `execute` or `run` catches goes into the promise. -/
def execute (request : Request) : Option String → Requested
  | none => { request := request, session := { phase := .resolving } }
  | some what => { request := request, session := ({} : ClientSession).onError what }

/-- A step of a program that has not ended. -/
def act (s : Connector Cid) : ConnectorEvent Cid → Option (Connector Cid)
  | .execute c request throws =>
    if s.running ∧ (s.requested c).isNone then
      some { s with requested := Function.update s.requested c (some (execute request throws)) }
    else none
  | .requested c event =>
    if event.ofClient && !s.running then none
    else (s.requested c).bind fun r => (r.step event).map fun r' =>
      { s with
        terminated := r.throws event
        requested := Function.update s.requested c (some r') }
  | .destroy =>
    if s.running then
      some { s with
        running := false
        requested := fun c => (s.requested c).map fun r => { r with broken := decide r.Awaits } }
    else none

def step (s : Connector Cid) (event : ConnectorEvent Cid) : Option (Connector Cid) :=
  if s.terminated then none else s.act event

/-- An event that is not possible changes nothing. -/
def next (s : Connector Cid) (event : ConnectorEvent Cid) : Connector Cid := (step s event).getD s

end Connector

/-! ### One request -/

/-- The reader reads from the server, no more than a frame, and the promise is set once, with the end of the session. -/
structure RequestedInv (r : Requested) : Prop where
  reads : r.session.phase ≠ .finished → ReadsFrom r.session.reader r.incoming
  bounded : r.incoming.taken.length ≤ 4 + (contentLengthOf (r.incoming.taken.take 4)).toNat
  promise : r.session.promise = [] ∧ r.Awaits ∨ (∃ result, r.session.promise = [result]) ∧ r.session.phase = .finished
  value : ∀ response, .ok response ∈ r.session.promise → ∃ frame : Frame, r.incoming.taken = frame.bytes ∧
    (Response.make .UnknownError ByteString.empty).deserialize frame.bytes = .ok response
  unsent : r.session.phase = .resolving ∨ r.session.phase = .connecting ∨ r.session.phase = .sending → r.outgoing = []
  outgoing : r.outgoing <+: r.request.serialize

theorem requestedInv_execute (request : Request) (throws : Option String) :
    RequestedInv (Connector.execute request throws) := by
  cases throws with
  | none =>
    refine ⟨fun _ => Reader.reads_initial, Nat.zero_le _, Or.inl ⟨rfl, ?_, ?_⟩, ?_, fun _ => rfl, List.nil_prefix⟩
    · show ClientPhase.resolving ≠ .created
      decide
    · show ClientPhase.resolving ≠ .finished
      decide
    · intro response hmem
      cases show Except.ok response ∈ ([] : List (Except String Response)) from hmem
  | some what =>
    refine ⟨fun hne => absurd rfl hne, Nat.zero_le _, Or.inr ⟨⟨.error what, rfl⟩, rfl⟩, ?_, fun _ => rfl,
      List.nil_prefix⟩
    intro response hmem
    cases List.mem_singleton.mp (show Except.ok response ∈ [Except.error what] from hmem)

namespace RequestedInv

variable {r : Requested} (h : RequestedInv r)
include h

theorem promise_eq_nil (hphase : r.session.phase ≠ .finished) : r.session.promise = [] := by
  rcases h.promise with ⟨hnil, -⟩ | ⟨-, hfinished⟩
  · exact hnil
  · exact absurd hfinished hphase

theorem incoming {incoming : Channel UInt8} (htaken : incoming.taken = r.incoming.taken)
    (hreads : ∀ reader, ReadsFrom reader r.incoming → ReadsFrom reader incoming) :
    RequestedInv { r with incoming := incoming } where
  reads hphase := hreads _ (h.reads hphase)
  bounded := by
    show incoming.taken.length ≤ 4 + (contentLengthOf (incoming.taken.take 4)).toNat
    rw [htaken]
    exact h.bounded
  promise := h.promise
  value response hmem := by
    obtain ⟨frame, hframe, hparse⟩ := h.value response hmem
    exact ⟨frame, htaken.trans hframe, hparse⟩
  unsent := h.unsent
  outgoing := h.outgoing

theorem advance {phase : ClientPhase} {outgoing : List UInt8} (hphase : r.session.phase ≠ .finished)
    (hcreated : phase ≠ .created) (hfinished : phase ≠ .finished)
    (hunsent : phase = .resolving ∨ phase = .connecting ∨ phase = .sending → outgoing = [])
    (houtgoing : outgoing <+: r.request.serialize) :
    RequestedInv { r with session := { r.session with phase := phase }, outgoing := outgoing } where
  reads _ := h.reads hphase
  bounded := h.bounded
  promise := Or.inl ⟨h.promise_eq_nil hphase, hcreated, hfinished⟩
  value := h.value
  unsent := hunsent
  outgoing := houtgoing

theorem read {session : ClientSession} {incoming : Channel UInt8} (hphase : r.session.phase = .reading)
    (hsame : session.phase = .reading) (hpromise : session.promise = r.session.promise)
    (hreads : ReadsFrom session.reader incoming) :
    RequestedInv { r with session := session, incoming := incoming } where
  reads _ := hreads
  bounded := by
    have hbounded := hreads.bounded
    rw [hreads.buffer] at hbounded
    exact hbounded
  promise := by
    refine Or.inl ⟨hpromise.trans (h.promise_eq_nil (by rw [hphase]; decide)), ?_, ?_⟩
    · show session.phase ≠ .created
      rw [hsame]
      decide
    · show session.phase ≠ .finished
      rw [hsame]
      decide
  value response hmem := by
    change Except.ok response ∈ session.promise at hmem
    rw [hpromise, h.promise_eq_nil (by rw [hphase]; decide)] at hmem
    cases hmem
  unsent hunsent := by
    change session.phase = .resolving ∨ session.phase = .connecting ∨ session.phase = .sending at hunsent
    rw [hsame] at hunsent
    simp at hunsent
  outgoing := h.outgoing

theorem finish {session : ClientSession} {result : Except String Response} (hphase : r.session.phase ≠ .finished)
    (hfinished : session.phase = .finished) (hpromise : session.promise = r.session.promise ++ [result])
    (hvalue : ∀ response, result = .ok response → ∃ frame : Frame, r.incoming.taken = frame.bytes ∧
      (Response.make .UnknownError ByteString.empty).deserialize frame.bytes = .ok response) :
    RequestedInv { r with session := session } := by
  rw [h.promise_eq_nil hphase, List.nil_append] at hpromise
  refine ⟨fun hne => absurd hfinished hne, h.bounded, Or.inr ⟨⟨result, hpromise⟩, hfinished⟩, ?_, ?_, h.outgoing⟩
  · intro response hmem
    change Except.ok response ∈ session.promise at hmem
    rw [hpromise] at hmem
    exact hvalue response (List.mem_singleton.mp hmem).symm
  · intro hunsent
    change session.phase = .resolving ∨ session.phase = .connecting ∨ session.phase = .sending at hunsent
    rw [hfinished] at hunsent
    simp at hunsent

theorem onReceive (hphase : r.session.phase = .reading) (hcontent : r.session.reader.content = true)
    (hremaining : r.session.reader.remaining = 0) :
    ∃ response, r.session.onReceive.promise = r.session.promise ++ [.ok response] ∧
      RequestedInv { r with session := r.session.onReceive } := by
  have hne : r.session.phase ≠ .finished := by rw [hphase]; decide
  have hreads := h.reads hne
  obtain ⟨frame, hframe⟩ := exists_frame (hreads.framed hcontent hremaining)
  obtain ⟨response, hparse⟩ := deserialize_response_isOk r.session.reader.buffer
  have hpromise : r.session.onReceive.promise = r.session.promise ++ [.ok response] := by
    unfold ClientSession.onReceive
    rw [hparse]
  refine ⟨response, hpromise, h.finish hne r.session.phase_onReceive hpromise ?_⟩
  rintro response' ⟨⟩
  exact ⟨frame, by rw [hframe, hreads.buffer], by rw [hframe]; exact hparse⟩

theorem step {event : RequestedEvent} {r' : Requested} (hstep : r.step event = some r') : RequestedInv r' := by
  cases Requested.step_cases hstep with
  | onResolve hphase =>
    exact h.advance (by rw [hphase]; decide) (by decide) (by decide) (fun _ => h.unsent (Or.inl hphase)) h.outgoing
  | onConnect hphase =>
    exact h.advance (by rw [hphase]; decide) (by decide) (by decide) (fun _ => h.unsent (Or.inr (Or.inl hphase)))
      h.outgoing
  | onSend hphase hle =>
    have hnothing := h.unsent (Or.inr (Or.inr hphase))
    refine h.advance (by rw [hphase]; decide) (by decide) (by decide) (fun hunsent => by simp at hunsent) ?_
    rw [hnothing, List.nil_append]
    exact List.take_prefix _ _
  | receive hphase hle htake =>
    exact h.read hphase hphase rfl ((h.reads (by rw [hphase]; decide)).receive htake hle)
  | onContentLengthReceive hphase hcontent hremaining =>
    exact h.read hphase hphase rfl ((h.reads (by rw [hphase]; decide)).expect hcontent hremaining)
  | onReceive hphase hcontent hremaining =>
    obtain ⟨response, -, hinv⟩ := h.onReceive hphase hcontent hremaining
    exact hinv
  | error hawaits => exact h.finish hawaits.2 rfl rfl fun response hok => by cases hok
  | @send bytes => exact h.incoming (Channel.taken_write _ _) fun reader hreads => hreads.write bytes
  | deliver hdeliver => exact h.incoming (Channel.deliver_eq hdeliver).2 fun reader hreads => hreads.deliver hdeliver

end RequestedInv

theorem Requested.request_eq {r r' : Requested} {event : RequestedEvent} (hstep : r.step event = some r') :
    r'.request = r.request ∧ r'.broken = r.broken := by
  cases Requested.step_cases hstep with
  | _ => exact ⟨rfl, rfl⟩

theorem Requested.session_eq_of_finished {r r' : Requested} {event : RequestedEvent}
    (hfinished : r.session.phase = .finished) (hstep : r.step event = some r') : r'.session = r.session := by
  cases Requested.step_cases hstep with
  | send => rfl
  | deliver hdeliver => rfl
  | error hawaits => exact absurd hfinished hawaits.2
  | _ => simp_all

theorem Requested.session_eq {r r' : Requested} {event : RequestedEvent} (hclient : event.ofClient = false)
    (hstep : r.step event = some r') : r'.session = r.session := by
  cases Requested.step_cases hstep with
  | send => rfl
  | deliver hdeliver => rfl
  | _ => cases hclient

/-! ### Futures -/

theorem Requested.future_pending_iff (r : Requested) :
    r.future = .pending ↔ r.session.promise = [] ∧ r.broken = false := by
  unfold future
  cases r.session.promise with
  | cons result rest => simp
  | nil => cases r.broken <;> simp

theorem Requested.future_congr {r r' : Requested} (hpromise : r'.session.promise = r.session.promise)
    (hbroken : r'.broken = r.broken) : r'.future = r.future := by
  unfold future
  rw [hpromise, hbroken]

theorem Requested.future_of_promise {r : Requested} {result : Except String Response}
    (h : r.session.promise = [result]) : r.future = .ready result := by
  unfold future
  rw [h]

/-! ### Runs -/

section runs

variable [DecidableEq Cid] {s s' : Connector Cid}

/-- Every request is in order, promises are broken by the destructor and only those that were not set, and no handler
has ended the program. -/
structure ConnectorInv (s : Connector Cid) : Prop where
  requested : ∀ c r, s.requested c = some r → RequestedInv r ∧
    (r.broken = true ↔ s.running = false ∧ r.session.promise = [])
  terminated : s.terminated = false

omit [DecidableEq Cid] in
theorem connectorInv_initial : ConnectorInv ({} : Connector Cid) where
  requested c r hr := by cases hr
  terminated := rfl

theorem Connector.step_execute {c : Cid} {request : Request} {throws : Option String}
    (hstep : s.step (.execute c request throws) = some s') :
    s.running = true ∧ s.requested c = none ∧
      s' = { s with requested := Function.update s.requested c (some (execute request throws)) } := by
  unfold Connector.step at hstep
  split_ifs at hstep
  simp only [act] at hstep
  split_ifs at hstep with hcond
  cases hstep
  exact ⟨hcond.1, Option.isNone_iff_eq_none.mp hcond.2, rfl⟩

theorem Connector.step_requested {c : Cid} {event : RequestedEvent}
    (hstep : s.step (.requested c event) = some s') :
    (event.ofClient = true → s.running = true) ∧ ∃ r r', s.requested c = some r ∧ r.step event = some r' ∧
      s' = { s with
        terminated := r.throws event
        requested := Function.update s.requested c (some r') } := by
  unfold Connector.step at hstep
  split_ifs at hstep
  simp only [act] at hstep
  split_ifs at hstep with hcond
  obtain ⟨r, hr, hmap⟩ := Option.bind_eq_some_iff.mp hstep
  obtain ⟨r', hr', hs'⟩ := Option.map_eq_some_iff.mp hmap
  refine ⟨?_, r, r', hr, hr', hs'.symm⟩
  intro hclient
  simpa [hclient] using hcond

theorem Connector.step_destroy (hstep : s.step .destroy = some s') :
    s.running = true ∧ s' = { s with
      running := false
      requested := fun c => (s.requested c).map fun r => { r with broken := decide r.Awaits } } := by
  unfold Connector.step at hstep
  split_ifs at hstep
  simp only [act] at hstep
  split_ifs at hstep with hrunning
  cases hstep
  exact ⟨hrunning, rfl⟩

theorem Requested.throws_eq_false (r : Requested) (event : RequestedEvent) : r.throws event = false := by
  cases event with
  | onReceive =>
    obtain ⟨response, hparse⟩ := deserialize_response_isOk r.session.reader.buffer
    simp only [throws, hparse]
  | _ => rfl

theorem RequestedInv.destroy {r : Requested} (h : RequestedInv r) :
    RequestedInv { r with broken := decide r.Awaits } ∧ (decide r.Awaits = true ↔ r.session.promise = []) := by
  refine ⟨⟨h.reads, h.bounded, h.promise, h.value, h.unsent, h.outgoing⟩, ?_⟩
  rw [decide_eq_true_iff]
  rcases h.promise with ⟨hnil, hawaits⟩ | ⟨⟨result, hresult⟩, hfinished⟩
  · exact iff_of_true hawaits hnil
  · refine iff_of_false (fun hawaits => hawaits.2 hfinished) ?_
    rw [hresult]
    simp

theorem ConnectorInv.step (h : ConnectorInv s) {event : ConnectorEvent Cid} (hstep : s.step event = some s') :
    ConnectorInv s' := by
  cases event with
  | execute c request throws =>
    obtain ⟨hrunning, -, rfl⟩ := Connector.step_execute hstep
    refine ⟨(Function.forall_update_iff s.requested (p := fun _ o => ∀ r, o = some r → RequestedInv r ∧
      (r.broken = true ↔ s.running = false ∧ r.session.promise = []))).mpr ⟨?_, fun c _ => h.requested c⟩,
      h.terminated⟩
    rintro r ⟨⟩
    refine ⟨requestedInv_execute request throws, iff_of_false ?_ ?_⟩
    · cases throws <;> exact Bool.false_ne_true
    · rw [hrunning]
      simp
  | requested c event =>
    obtain ⟨hclient, r, r', hr, hr', rfl⟩ := Connector.step_requested hstep
    obtain ⟨hinv, hbroken⟩ := h.requested c r hr
    refine ⟨(Function.forall_update_iff s.requested (p := fun _ o => ∀ r, o = some r → RequestedInv r ∧
      (r.broken = true ↔ s.running = false ∧ r.session.promise = []))).mpr ⟨?_, fun c _ => h.requested c⟩,
      r.throws_eq_false event⟩
    rintro r'' ⟨⟩
    refine ⟨hinv.step hr', ?_⟩
    rw [(Requested.request_eq hr').2, hbroken]
    cases hevent : event.ofClient with
    | true => simp [hclient hevent]
    | false => rw [Requested.session_eq hevent hr']
  | destroy =>
    obtain ⟨-, rfl⟩ := Connector.step_destroy hstep
    refine ⟨fun c r hr => ?_, h.terminated⟩
    obtain ⟨r₀, hr₀, rfl⟩ := Option.map_eq_some_iff.mp hr
    obtain ⟨hinv, hawaits⟩ := (h.requested c r₀ hr₀).1.destroy
    exact ⟨hinv, hawaits.trans (and_iff_right rfl).symm⟩

/-- A request stays, and so does its future where it is ready or broken. -/
def Settles (r : Requested) (s : Connector Cid) (c : Cid) : Prop :=
  ∃ r', s.requested c = some r' ∧ r'.request = r.request ∧ (r.future ≠ .pending → r'.future = r.future)

theorem ConnectorInv.future_step (h : ConnectorInv s) {event : ConnectorEvent Cid} (hstep : s.step event = some s')
    {c : Cid} {r : Requested} (hr : s.requested c = some r) : Settles r s' c := by
  obtain ⟨hinv, hbroken⟩ := h.requested c r hr
  cases event with
  | execute c' request throws =>
    obtain ⟨-, hnone, rfl⟩ := Connector.step_execute hstep
    have hne : c ≠ c' := by
      rintro rfl
      rw [hnone] at hr
      cases hr
    exact ⟨r, (Function.update_of_ne hne _ _).trans hr, rfl, fun _ => rfl⟩
  | requested c' event =>
    obtain ⟨hclient, r₀, r', hr₀, hr', rfl⟩ := Connector.step_requested hstep
    by_cases hne : c = c'
    · subst hne
      cases hr.symm.trans hr₀
      refine ⟨r', Function.update_self _ _ _, (Requested.request_eq hr').1, fun hsettled => ?_⟩
      refine Requested.future_congr ?_ (Requested.request_eq hr').2
      rcases hinv.promise with ⟨hnil, -⟩ | ⟨-, hfinished⟩
      · -- the promise is broken, and the thread does not run any more
        have htrue : r.broken = true := by
          by_contra hfalse
          exact hsettled (r.future_pending_iff.mpr ⟨hnil, by simpa using hfalse⟩)
        have hstopped := (hbroken.mp htrue).1
        have hnetwork : event.ofClient = false := by
          by_contra hevent
          rw [hclient (by simpa using hevent)] at hstopped
          cases hstopped
        rw [Requested.session_eq hnetwork hr']
      · rw [Requested.session_eq_of_finished hfinished hr']
    · exact ⟨r, (Function.update_of_ne hne _ _).trans hr, rfl, fun _ => rfl⟩
  | destroy =>
    obtain ⟨hrunning, rfl⟩ := Connector.step_destroy hstep
    refine ⟨_, congrArg (Option.map _) hr, rfl, fun hsettled => ?_⟩
    rcases hinv.promise with ⟨hnil, -⟩ | ⟨⟨result, hresult⟩, -⟩
    · refine absurd (r.future_pending_iff.mpr ⟨hnil, ?_⟩) hsettled
      by_contra hfalse
      have hstopped := (hbroken.mp (by simpa using hfalse)).1
      rw [hrunning] at hstopped
      cases hstopped
    · rw [Requested.future_of_promise hresult]
      exact Requested.future_of_promise hresult

theorem ConnectorInv.next (h : ConnectorInv s) (event : ConnectorEvent Cid) : ConnectorInv (s.next event) := by
  unfold Connector.next
  cases hstep : s.step event with
  | none => exact h
  | some s' => exact h.step hstep

theorem connectorInv_run (events : List (ConnectorEvent Cid)) :
    ConnectorInv (Runs.run Connector.next ({} : Connector Cid) events) :=
  Runs.run_inv ConnectorInv (fun _ event h _ => h.next event)
    (Runs.Meets.of_forall Connector.next _ fun _ _ => trivial) connectorInv_initial

theorem ConnectorInv.future_run (h : ConnectorInv s) {c : Cid} {r : Requested} (hr : s.requested c = some r)
    (events : List (ConnectorEvent Cid)) : Settles r (Runs.run Connector.next s events) c := by
  have hboth : ConnectorInv (Runs.run Connector.next s events) ∧ Settles r (Runs.run Connector.next s events) c := by
    refine Runs.run_inv (fun s => ConnectorInv s ∧ Settles r s c) ?_
      (Runs.Meets.of_forall Connector.next _ fun _ _ => trivial) ⟨h, r, hr, rfl, fun _ => rfl⟩
    rintro s event ⟨h, r', hr', hrequest, hfuture⟩ -
    refine ⟨h.next event, ?_⟩
    unfold Connector.next
    cases hstep : s.step event with
    | none => exact ⟨r', hr', hrequest, hfuture⟩
    | some s' =>
      obtain ⟨r'', hr'', hrequest', hfuture'⟩ := h.future_step hstep hr'
      refine ⟨r'', hr'', hrequest'.trans hrequest, fun hsettled => ?_⟩
      rw [hfuture' (by rw [hfuture hsettled]; exact hsettled), hfuture hsettled]
  exact hboth.2

/-- Whatever the servers send and whenever the connector is destroyed, no handler ends the program, and the promise of
every request is set at most once: to the response its first frame is parsed to, of whose bytes no more is taken, or to
an exception. A future that is ready or broken stays so, and behind the destructor every future is. -/
theorem futures_settle (events more : List (ConnectorEvent Cid)) :
    let s := Runs.run Connector.next ({} : Connector Cid) events
    s.terminated = false ∧ ∀ c r, s.requested c = some r →
      r.session.promise.length ≤ 1 ∧
      (∀ response, r.future = .ready (.ok response) → ∃ frame : Frame, r.incoming.taken = frame.bytes ∧
        (Response.make .UnknownError ByteString.empty).deserialize frame.bytes = .ok response) ∧
      (∀ frame : Frame, frame.bytes <+: r.incoming.written → r.incoming.consumed ≤ frame.bytes.length) ∧
      r.outgoing <+: r.request.serialize ∧
      (s.running = false → r.future ≠ .pending) ∧
      Settles r (Runs.run Connector.next s more) c := by
  intro s
  have hinv : ConnectorInv s := connectorInv_run events
  refine ⟨hinv.terminated, fun c r hr => ?_⟩
  obtain ⟨hrequested, hbroken⟩ := hinv.requested c r hr
  refine ⟨?_, ?_, ?_, hrequested.outgoing, ?_, hinv.future_run hr more⟩
  · rcases hrequested.promise with ⟨hnil, -⟩ | ⟨⟨result, hresult⟩, -⟩
    · rw [hnil]
      exact Nat.zero_le 1
    · rw [hresult]
      exact le_refl 1
  · intro response hready
    rcases hrequested.promise with ⟨hnil, -⟩ | ⟨⟨result, hresult⟩, -⟩
    · unfold Requested.future at hready
      rw [hnil] at hready
      cases hbrokenCase : r.broken <;> rw [hbrokenCase] at hready <;> cases hready
    · rw [Requested.future_of_promise hresult] at hready
      cases hready
      exact hrequested.value response (by rw [hresult]; exact List.mem_singleton_self _)
  · intro frame hfront
    exact Reader.consumed_le_of_framed hrequested.bounded (framed_frame frame) hfront
  · intro hstopped hpending
    obtain ⟨hnil, hfalse⟩ := r.future_pending_iff.mp hpending
    rw [hbroken.mpr ⟨hstopped, hnil⟩] at hfalse
    cases hfalse

end runs

/-! ### Coming to rest -/

/-- An exception of `execute` or an operation that fails. -/
def ConnectorEvent.isError : ConnectorEvent Cid → Bool
  | .execute _ _ throws => throws.isSome
  | .requested _ (.error _) => true
  | _ => false

/-- A handler without an error, or bytes on their way. -/
def ConnectorEvent.isOrdinary : ConnectorEvent Cid → Bool
  | .requested _ (.error _) => false
  | .requested _ (.send _) => false
  | .requested _ _ => true
  | _ => false

/-- Nothing is left to do without new requests, errors, more bytes from a server or the destructor. -/
def Connector.AtRest [DecidableEq Cid] (s : Connector Cid) : Prop :=
  ∀ event : ConnectorEvent Cid, event.isOrdinary = true → s.step event = none

def handlersLeft : Option Requested → Nat
  | some r => r.session.handlersLeft
  | none => 0

def bytesLeft : Option Requested → Nat
  | some r => r.incoming.left
  | none => 0

theorem Requested.step_decreases {r r' : Requested} {c : Cid} {event : RequestedEvent}
    (hordinary : (ConnectorEvent.requested c event).isOrdinary = true) (hstep : r.step event = some r') :
    handlersLeft (some r') < handlersLeft (some r) ∨
      handlersLeft (some r') = handlersLeft (some r) ∧ bytesLeft (some r') < bytesLeft (some r) := by
  cases Requested.step_cases hstep with
  | send => cases hordinary
  | error hawaits => cases hordinary
  | deliver hdeliver => exact Or.inr ⟨rfl, Channel.left_deliver hdeliver⟩
  | receive hphase hle htake => exact Or.inr ⟨rfl, Channel.left_take htake⟩
  | onResolve hphase => exact Or.inl (by simp [handlersLeft, ClientSession.handlersLeft, hphase])
  | onConnect hphase => exact Or.inl (by simp [handlersLeft, ClientSession.handlersLeft, hphase])
  | onSend hphase hle =>
    refine Or.inl ?_
    simp only [handlersLeft, ClientSession.handlersLeft, hphase]
    split <;> omega
  | onContentLengthReceive hphase hcontent hremaining =>
    refine Or.inl ?_
    simp [handlersLeft, ClientSession.handlersLeft, ClientSession.onContentLengthReceive, Reader.expect, hphase,
      hcontent]
  | onReceive hphase hcontent hremaining =>
    have hfinished := r.session.phase_onReceive
    exact Or.inl (by simp [handlersLeft, ClientSession.handlersLeft, hfinished, hphase, hcontent])

theorem Connector.descends [Fintype Cid] [DecidableEq Cid] :
    Runs.Descends (Connector.step : Connector Cid → ConnectorEvent Cid → Option (Connector Cid))
      (fun event => event.isOrdinary = true) (fun _ => True) (· < ·)
      fun s : Connector Cid => toLex (∑ c, handlersLeft (s.requested c), ∑ c, bytesLeft (s.requested c)) where
  wf := wellFounded_lt
  step {s s' event} _ hordinary hstep := by
    refine ⟨trivial, ?_⟩
    cases event with
    | execute c request throws => cases hordinary
    | destroy => cases hordinary
    | requested c event =>
      obtain ⟨-, r, r', hr, hr', rfl⟩ := Connector.step_requested hstep
      have hless := Requested.step_decreases hordinary hr'
      rw [← hr] at hless
      rw [Prod.Lex.toLex_lt_toLex]
      rcases hless with hhandlers | ⟨heq, hbytes⟩
      · exact Or.inl (sum_update_lt hhandlers)
      · exact Or.inr ⟨sum_update_eq heq, sum_update_lt hbytes⟩

section rest

variable [DecidableEq Cid] {s s' : Connector Cid}

/-- No promise was set to an exception. -/
def Unfailed (s : Connector Cid) : Prop :=
  ∀ c r, s.requested c = some r → ∀ message, .error message ∉ r.session.promise

theorem Unfailed.step (h : Unfailed s) (hinv : ConnectorInv s) {event : ConnectorEvent Cid}
    (herror : event.isError = false) (hstep : s.step event = some s') : Unfailed s' := by
  cases event with
  | execute c request throws =>
    obtain ⟨-, -, rfl⟩ := Connector.step_execute hstep
    refine (Function.forall_update_iff s.requested (p := fun _ o => ∀ r, o = some r →
      ∀ message, Except.error message ∉ r.session.promise)).mpr ⟨?_, fun c _ => h c⟩
    rintro r ⟨⟩ message
    cases throws with
    | some what => cases herror
    | none => exact List.not_mem_nil
  | requested c event =>
    obtain ⟨-, r, r', hr, hr', rfl⟩ := Connector.step_requested hstep
    refine (Function.forall_update_iff s.requested (p := fun _ o => ∀ r, o = some r →
      ∀ message, Except.error message ∉ r.session.promise)).mpr ⟨?_, fun c _ => h c⟩
    rintro r'' ⟨⟩ message
    cases Requested.step_cases hr' with
    | error hawaits => cases herror
    | onReceive hphase hcontent hremaining =>
      obtain ⟨response, hpromise, -⟩ := (hinv.requested c r hr).1.onReceive hphase hcontent hremaining
      show Except.error message ∉ r.session.onReceive.promise
      rw [hpromise, List.mem_append, not_or]
      exact ⟨h c r hr message, fun hmem => by cases List.mem_singleton.mp hmem⟩
    | _ => exact h c r hr message
  | destroy =>
    obtain ⟨-, rfl⟩ := Connector.step_destroy hstep
    intro c r hr
    obtain ⟨r₀, hr₀, rfl⟩ := Option.map_eq_some_iff.mp hr
    exact h c r₀ hr₀

theorem Connector.AtRest.phase (h : s.AtRest) (hrunning : s.running = true) (hinv : ConnectorInv s) {c : Cid}
    {r : Requested} (hr : s.requested c = some r) :
    r.session.phase = .finished ∨ r.session.phase = .reading ∧ r.session.reader.remaining ≠ 0 ∧
      r.incoming.taken = r.incoming.written := by
  have hstep : ∀ event : RequestedEvent, (ConnectorEvent.requested c event).isOrdinary = true →
      r.step event = none := by
    intro event hordinary
    have hnone := h (.requested c event) hordinary
    simpa [Connector.step, Connector.act, hinv.terminated, hrunning, hr] using hnone
  cases hphase : r.session.phase with
  | created =>
    rcases (hinv.requested c r hr).1.promise with ⟨-, hcreated, -⟩ | ⟨-, hfinished⟩
    · exact absurd hphase hcreated
    · rw [hphase] at hfinished
      cases hfinished
  | resolving =>
    have hnone := hstep .onResolve rfl
    simp [Requested.step, hphase] at hnone
  | connecting =>
    have hnone := hstep .onConnect rfl
    simp [Requested.step, hphase] at hnone
  | sending =>
    have hnone := hstep (.onSend 0) rfl
    simp [Requested.step, hphase] at hnone
  | finished => exact Or.inl rfl
  | reading =>
    have hremaining : r.session.reader.remaining ≠ 0 := by
      intro hzero
      cases hcontent : r.session.reader.content with
      | false =>
        have hnone := hstep .onContentLengthReceive rfl
        simp [Requested.step, hphase, hcontent, hzero] at hnone
      | true =>
        have hnone := hstep .onReceive rfl
        simp [Requested.step, hphase, hcontent, hzero] at hnone
    refine Or.inr ⟨rfl, hremaining, Channel.taken_eq_written ?_ ?_⟩
    · exact Option.map_eq_none_iff.mp (hstep (.deliver 1) rfl)
    · have hnone := hstep (.receive 1) rfl
      simp only [Requested.step] at hnone
      rw [if_pos ⟨hphase, Nat.one_le_iff_ne_zero.mpr hremaining⟩] at hnone
      exact Option.map_eq_none_iff.mp hnone

end rest

/-- The bytes of the server begin with a whole frame, and the future has what it is parsed to. -/
def ValuedFirst (r : Requested) : Prop :=
  ∃ (frame : Frame) (response : Response), frame.bytes <+: r.incoming.written ∧
    (Response.make .UnknownError ByteString.empty).deserialize frame.bytes = .ok response ∧
    r.future = .ready (.ok response)

/-- The bytes of the server do not begin with a whole frame, and the future waits for the destructor. -/
structure WaitsForResponse (r : Requested) : Prop where
  unframed : ∀ frame : Frame, ¬ frame.bytes <+: r.incoming.written
  taken : r.incoming.taken = r.incoming.written
  future : r.future = .pending

/-- Finitely many requests come to rest from every state by handlers that are told of no error. After a run without
errors that has come to rest before the destructor, exactly the requests have a value whose server has sent a whole
frame first. -/
theorem value_iff_frame [Fintype Cid] [DecidableEq Cid] (events : List (ConnectorEvent Cid)) :
    let s := Runs.run Connector.next ({} : Connector Cid) events
    (∃ more : List (ConnectorEvent Cid), (∀ event ∈ more, event.isOrdinary = true) ∧
        (Runs.run Connector.next s more).AtRest) ∧
      ((∀ event ∈ events, event.isError = false) → s.AtRest → s.running = true →
        ∀ c r, s.requested c = some r → ValuedFirst r ∨ WaitsForResponse r) := by
  intro s
  obtain ⟨more, hmore, hrest⟩ := Connector.descends.exists_rest (s := s) trivial
  refine ⟨⟨more, hmore, hrest⟩, ?_⟩
  intro hevents hrest hrunning c r hr
  obtain ⟨hinv, hunfailed⟩ : ConnectorInv s ∧ Unfailed s := by
    refine Runs.run_inv (fun s : Connector Cid => ConnectorInv s ∧ Unfailed s) ?_
      (Runs.Meets.of_forall Connector.next _ hevents) ⟨connectorInv_initial, fun c r hr => by cases hr⟩
    rintro s event ⟨hinv, hunfailed⟩ herror
    refine ⟨hinv.next event, ?_⟩
    unfold Connector.next
    cases hstep : s.step event with
    | none => exact hunfailed
    | some s' => exact hunfailed.step hinv herror hstep
  obtain ⟨hrequested, hbroken⟩ := hinv.requested c r hr
  rcases hrest.phase hrunning hinv hr with hfinished | ⟨hreading, hremaining, htaken⟩
  · rcases hrequested.promise with ⟨-, -, hne⟩ | ⟨⟨result, hresult⟩, -⟩
    · exact absurd hfinished hne
    · cases result with
      | error message =>
        refine absurd ?_ (hunfailed c r hr message)
        rw [hresult]
        exact List.mem_singleton_self _
      | ok response =>
        obtain ⟨frame, hframe, hparse⟩ := hrequested.value response (by rw [hresult]; exact List.mem_singleton_self _)
        refine Or.inl ⟨frame, response, ?_, hparse, Requested.future_of_promise hresult⟩
        rw [← hframe]
        exact List.take_prefix _ _
  · have hne : r.session.phase ≠ .finished := by rw [hreading]; decide
    refine Or.inr ⟨?_, htaken, r.future_pending_iff.mpr ⟨hrequested.promise_eq_nil hne, ?_⟩⟩
    · rintro frame ⟨tail, htail⟩
      exact hremaining ((hrequested.reads hne).remaining_eq_zero (framed_frame frame) htail.symm htaken)
    · by_contra htrue
      have hstopped := (hbroken.mp (by simpa using htrue)).1
      rw [hrunning] at hstopped
      cases hstopped

/-- One server sends the response of a put, the other the first three bytes of one. -/
def responseAndPart : List (ConnectorEvent Bool) :=
  [.execute false (Request.make .Put ⟨1⟩ ByteString.empty) none,
    .execute true (Request.make .Get ⟨1⟩ ByteString.empty) none, .requested true .onResolve,
    .requested true .onConnect, .requested false .onResolve, .requested true (.onSend 17),
    .requested true (.send [5, 0, 0]), .requested false .onConnect, .requested false (.onSend 17),
    .requested false (.send (Response.make .Ok ByteString.empty).serialize), .requested true (.deliver 3),
    .requested false (.deliver 9), .requested false (.receive 4), .requested true (.receive 3),
    .requested false .onContentLengthReceive, .requested false (.receive 5), .requested false .onReceive]

theorem Connector.atRest_of_sessions [DecidableEq Cid] {s : Connector Cid}
    (harrived : ∀ c, ∀ r ∈ s.requested c, r.incoming.arrived = r.incoming.written.length)
    (hsession : ∀ c, ∀ r ∈ s.requested c, r.session.phase = .finished ∨ r.session.phase = .reading ∧
      r.session.reader.remaining ≠ 0 ∧ r.incoming.consumed = r.incoming.arrived) : s.AtRest := by
  intro event hordinary
  cases event with
  | execute c request throws => cases hordinary
  | destroy => cases hordinary
  | requested c event =>
    simp only [Connector.step, Connector.act]
    cases hr : s.requested c with
    | none => simp
    | some r =>
      have hnone : r.step event = none := by
        cases event with
        | send bytes => cases hordinary
        | error message => cases hordinary
        | deliver numBytes =>
          have hall := harrived c r hr
          refine Option.map_eq_none_iff.mpr (dif_neg ?_)
          omega
        | receive numBytes =>
          refine ite_eq_right_iff.mpr fun hcond => Option.map_eq_none_iff.mpr (dif_neg ?_)
          rcases hsession c r hr with hfinished | ⟨-, -, hconsumed⟩
          · rw [hfinished] at hcond
            cases hcond.1
          · omega
        | _ => rcases hsession c r hr with hfinished | ⟨hreading, hremaining, -⟩ <;> simp_all [Requested.step]
      rw [Option.bind_some, hnone, Option.map_none, ite_self, ite_self]

theorem value_iff_frame_part :
    (∃ r, (Runs.run Connector.next ({} : Connector Bool) responseAndPart).requested false = some r ∧ ValuedFirst r) ∧
      ∃ r, (Runs.run Connector.next ({} : Connector Bool) responseAndPart).requested true = some r ∧
        WaitsForResponse r := by
  have hrest : (Runs.run Connector.next ({} : Connector Bool) responseAndPart).AtRest := by
    apply Connector.atRest_of_sessions
    · decide +kernel
    · decide +kernel
  have hall := (value_iff_frame responseAndPart).2 (by decide) hrest (by decide +kernel)
  have hphase : ∀ c, ∀ r ∈ (Runs.run Connector.next ({} : Connector Bool) responseAndPart).requested c,
      r.session.promise.isEmpty = c := by
    decide +kernel
  constructor
  · obtain ⟨r, hr⟩ : ∃ r, (Runs.run Connector.next ({} : Connector Bool) responseAndPart).requested false = some r :=
      Option.isSome_iff_exists.mp (by decide +kernel)
    refine ⟨r, hr, (hall false r hr).resolve_right fun hwaits => ?_⟩
    have hnil := (r.future_pending_iff.mp hwaits.future).1
    have hempty := hphase false r hr
    rw [hnil] at hempty
    cases hempty
  · obtain ⟨r, hr⟩ : ∃ r, (Runs.run Connector.next ({} : Connector Bool) responseAndPart).requested true = some r :=
      Option.isSome_iff_exists.mp (by decide +kernel)
    refine ⟨r, hr, (hall true r hr).resolve_left ?_⟩
    rintro ⟨frame, response, -, -, hready⟩
    have hempty := List.isEmpty_iff.mp (hphase true r hr)
    unfold Requested.future at hready
    rw [hempty] at hready
    cases hbroken : r.broken <;> rw [hbroken] at hready <;> cases hready

end Networking

end OmxDb
