import OmxDb.Exchange

/-!
# Sends of a part of the request

`onConnect` starts `async_send` with the serialized request, and `onSend` reads on whatever `numBytes` it is told.
`Sends` is the network of the sessions with the send as an operation of its own, which hands any number of bytes to
the socket and reports it. So the client waits only for requests that are sent in full if and only if every send is
complete (`meets_waitsSent_iff`); the runs of the sessions are those (`network_run_complete`). After a shorter send
the server waits for the rest of the request: nothing is handled and nothing is answered (`unserved_run`).
-/

namespace OmxDb

namespace Networking

open LittleEndian Framing

/-- `transferred` is what the send has reported, if it is complete. -/
structure Sends where
  network : Network := {}
  transferred : Option Nat := none

/-- `asyncSend` is the end of the operation, and `onSend` its handler. -/
inductive SendEvent where
  | onConnect
  | asyncSend (numBytes : Nat)
  | onSend (numBytes : Nat)
  | other (event : Event)

/-- What is no part of a send; the client writes nothing else. -/
def Event.isOther : Event → Bool
  | .onConnect => false
  | .onSend => false
  | .followRequest _ => false
  | _ => true

namespace Sends

variable (P : Platform) (request : Request)

def step (s : Sends) : SendEvent → Option Sends
  | .onConnect =>
    if s.network.client.phase = .connecting then
      some { s with network := { s.network with client := { s.network.client with phase := .sending } } }
    else none
  | .asyncSend numBytes =>
    if s.network.client.phase = .sending ∧ s.transferred = none ∧ numBytes ≤ request.serialize.length then
      some {
        network := { s.network with toServer := s.network.toServer.write (request.serialize.take numBytes) }
        transferred := some numBytes }
    else none
  | .onSend numBytes =>
    if s.network.client.phase = .sending ∧ s.transferred = some numBytes then
      some { s with network := { s.network with client := { s.network.client with phase := .reading } } }
    else none
  | .other event =>
    if event.isOther then (Networking.step P request s.network event).map fun network => { s with network := network }
    else none

/-- An event that is not possible changes nothing. -/
def next (s : Sends) (event : SendEvent) : Sends := (step P request s event).getD s

/-- A client that reads the response has handed the whole request to the socket. -/
def WaitsSent (s : Sends) : Prop := s.network.client.phase = .reading → s.network.toServer.written = request.serialize

/-- A handler that follows is told the size of the request. -/
def CompleteSend (s : Sends) : SendEvent → Prop
  | .onSend numBytes => s.network.client.phase = .sending ∧ s.transferred = some numBytes →
      numBytes = request.serialize.length
  | _ => True

/-! ### Complete sends -/

variable {P request}

/-- What a step does. -/
inductive Steps (P : Platform) (request : Request) (s : Sends) : SendEvent → Sends → Prop where
  | onConnect (hphase : s.network.client.phase = .connecting) :
      Steps P request s .onConnect
        { s with network := { s.network with client := { s.network.client with phase := .sending } } }
  | asyncSend {numBytes : Nat} (hphase : s.network.client.phase = .sending) (hnone : s.transferred = none)
      (hle : numBytes ≤ request.serialize.length) :
      Steps P request s (.asyncSend numBytes) {
        network := { s.network with toServer := s.network.toServer.write (request.serialize.take numBytes) }
        transferred := some numBytes }
  | onSend {numBytes : Nat} (hphase : s.network.client.phase = .sending)
      (htransferred : s.transferred = some numBytes) :
      Steps P request s (.onSend numBytes)
        { s with network := { s.network with client := { s.network.client with phase := .reading } } }
  | other {event : Event} {network : Network} (hother : event.isOther = true)
      (hnetwork : Networking.step P request s.network event = some network) :
      Steps P request s (.other event) { s with network := network }

theorem step_cases {s s' : Sends} {event : SendEvent} (hstep : step P request s event = some s') :
    Steps P request s event s' := by
  cases event with
  | onConnect =>
    simp only [step] at hstep
    split_ifs at hstep with hphase
    cases hstep
    exact .onConnect hphase
  | asyncSend numBytes =>
    simp only [step] at hstep
    split_ifs at hstep with hcond
    cases hstep
    exact .asyncSend hcond.1 hcond.2.1 hcond.2.2
  | onSend numBytes =>
    simp only [step] at hstep
    split_ifs at hstep with hcond
    cases hstep
    exact .onSend hcond.1 hcond.2
  | other event =>
    simp only [step] at hstep
    split_ifs at hstep with hother
    obtain ⟨network, hnetwork, rfl⟩ := Option.map_eq_some_iff.mp hstep
    exact .other hother hnetwork

/-- The client has not connected yet. -/
def Unconnected (phase : ClientPhase) : Prop := phase = .created ∨ phase = .resolving ∨ phase = .connecting

/-- The rest of the network leaves what was written alone, and takes the client no further than to connect. -/
theorem other_step {n n' : Network} {event : Event} (h : event.isOther = true)
    (hstep : Networking.step P request n event = some n') :
    n'.toServer.written = n.toServer.written ∧
    (n'.client.phase = n.client.phase ∨ n'.client.phase = .finished ∨
      Unconnected n.client.phase ∧ Unconnected n'.client.phase) := by
  cases Networking.step_cases hstep with
  | onConnect hphase => cases h
  | onSend hphase => cases h
  | followRequest hwritten => cases h
  | run hphase => exact ⟨rfl, Or.inr (Or.inr ⟨Or.inl hphase, Or.inr (Or.inl rfl)⟩)⟩
  | onResolve hphase => exact ⟨rfl, Or.inr (Or.inr ⟨Or.inr (Or.inl hphase), Or.inr (Or.inr rfl)⟩)⟩
  | runThrows hphase => exact ⟨rfl, Or.inr (Or.inl rfl)⟩
  | clientError hrun hphase => exact ⟨rfl, Or.inr (Or.inl rfl)⟩
  | onReceive hphase hcontent hremaining => exact ⟨rfl, Or.inr (Or.inl n.client.phase_onReceive)⟩
  | receiveRequest hphase hle htake => exact ⟨(Channel.take_eq htake).1, Or.inl rfl⟩
  | deliverRequest hdeliver => exact ⟨(Channel.deliver_eq hdeliver).1, Or.inl rfl⟩
  | _ => exact ⟨rfl, Or.inl rfl⟩

theorem unconnected_of_other {n n' : Network} {event : Event} (h : event.isOther = true)
    (hstep : Networking.step P request n event = some n') (hphase : Unconnected n'.client.phase) :
    Unconnected n.client.phase := by
  rcases (other_step h hstep).2 with heq | hfinished | ⟨hbefore, -⟩
  · rwa [heq] at hphase
  · simp [Unconnected, hfinished] at hphase
  · exact hbefore

theorem phase_of_other {n n' : Network} {event : Event} (h : event.isOther = true)
    (hstep : Networking.step P request n event = some n')
    (hphase : n'.client.phase = .sending ∨ n'.client.phase = .reading) : n'.client.phase = n.client.phase := by
  rcases (other_step h hstep).2 with heq | hfinished | ⟨-, hafter⟩
  · exact heq
  · simp [hfinished] at hphase
  · rcases hphase with hphase | hphase
    · simp [Unconnected, hphase] at hafter
    · simp [Unconnected, hphase] at hafter

/-- What was written is what the send has reported, and nothing before. -/
structure Tracked (request : Request) (s : Sends) : Prop where
  written : s.network.toServer.written = request.serialize.take (s.transferred.getD 0)
  le : s.transferred.getD 0 ≤ request.serialize.length
  unconnected : Unconnected s.network.client.phase → s.transferred = none

theorem tracked_initial (request : Request) : Tracked request {} := ⟨rfl, Nat.zero_le _, fun _ => rfl⟩

theorem Tracked.step {s s' : Sends} {event : SendEvent} (h : Tracked request s)
    (hstep : step P request s event = some s') : Tracked request s' := by
  cases step_cases hstep with
  | onConnect hphase =>
    refine ⟨h.written, h.le, fun hearly => ?_⟩
    simp [Unconnected] at hearly
  | @asyncSend numBytes hphase hnone hle =>
    have hnothing := h.written
    rw [hnone] at hnothing
    refine ⟨?_, hle, ?_⟩
    · show s.network.toServer.written ++ request.serialize.take numBytes = _
      rw [hnothing]
      rfl
    · simp [Unconnected, hphase]
  | onSend hphase htransferred =>
    refine ⟨h.written, h.le, fun hearly => ?_⟩
    simp [Unconnected] at hearly
  | other hother hnetwork =>
    exact ⟨(other_step hother hnetwork).1.trans h.written, h.le,
      fun hphase => h.unconnected (unconnected_of_other hother hnetwork hphase)⟩

theorem Tracked.next {s : Sends} (h : Tracked request s) (event : SendEvent) :
    Tracked request (next P request s event) := by
  unfold Sends.next
  cases hstep : Sends.step P request s event with
  | none => exact h
  | some s' => exact h.step hstep

theorem Tracked.written_eq_iff {s : Sends} (h : Tracked request s) {numBytes : Nat}
    (htransferred : s.transferred = some numBytes) :
    s.network.toServer.written = request.serialize ↔ numBytes = request.serialize.length := by
  have hwritten := h.written
  have hle := h.le
  rw [htransferred, Option.getD_some] at hwritten hle
  rw [hwritten, List.take_eq_self_iff]
  omega

/-- From a client that waits only for a whole request, the next event leads to one if and only if it is no handler
of a shorter send. -/
theorem waitsSent_next_iff {s : Sends} (htracked : Tracked request s) (hwaits : WaitsSent request s)
    (event : SendEvent) : WaitsSent request (next P request s event) ↔ CompleteSend request s event := by
  cases event with
  | onConnect =>
    refine iff_of_true ?_ trivial
    unfold Sends.next
    simp only [Sends.step]
    split_ifs with hphase
    · intro hreading
      cases hreading
    · exact hwaits
  | asyncSend numBytes =>
    refine iff_of_true ?_ trivial
    unfold Sends.next
    simp only [Sends.step]
    split_ifs with hcond
    · intro hreading
      have hreading' : s.network.client.phase = .reading := hreading
      rw [hcond.1] at hreading'
      cases hreading'
    · exact hwaits
  | onSend numBytes =>
    unfold Sends.next
    simp only [Sends.step, CompleteSend]
    split_ifs with hcond
    · rw [← htracked.written_eq_iff hcond.2]
      exact ⟨fun h _ => h rfl, fun h _ => h hcond⟩
    · exact iff_of_true hwaits (fun h => absurd h hcond)
  | other event =>
    refine iff_of_true ?_ trivial
    unfold Sends.next
    cases hstep : Sends.step P request s (.other event) with
    | none => exact hwaits
    | some s' =>
      cases step_cases hstep with
      | other hother hnetwork =>
        intro hphase
        have hbefore := phase_of_other hother hnetwork (Or.inr hphase)
        exact (other_step hother hnetwork).1.trans (hwaits (hbefore.symm.trans hphase))

/-- In every state of a run the client waits only for a request that was sent in full, if and only if every handler
of the run follows a complete send. -/
theorem meets_waitsSent_iff (P : Platform) (request : Request) (events : List SendEvent) :
    Runs.Meets (next P request) (fun s event => WaitsSent request (next P request s event)) {} events ↔
      Runs.Meets (next P request) (CompleteSend request) {} events := by
  have hinitial : Tracked request {} ∧ WaitsSent request {} := ⟨tracked_initial request, fun h => by cases h⟩
  constructor
  · intro hmeets
    refine Runs.Meets.of_inv (fun s => Tracked request s ∧ WaitsSent request s) ?_ ?_ hmeets hinitial
    · intro s event hinv hwaits
      exact ⟨hinv.1.next event, hwaits⟩
    · intro s event hinv hwaits
      exact (waitsSent_next_iff hinv.1 hinv.2 event).mp hwaits
  · intro hmeets
    refine Runs.Meets.of_inv (fun s => Tracked request s ∧ WaitsSent request s) ?_ ?_ hmeets hinitial
    · intro s event hinv hcomplete
      exact ⟨hinv.1.next event, (waitsSent_next_iff hinv.1 hinv.2 event).mpr hcomplete⟩
    · intro s event hinv hcomplete
      exact (waitsSent_next_iff hinv.1 hinv.2 event).mpr hcomplete

/-- The client connects, and its send reports a number of bytes. -/
def sendOf (numBytes : Nat) : List SendEvent :=
  [.other .run, .other .onResolve, .onConnect, .asyncSend numBytes, .onSend numBytes]

theorem run_sendOf (P : Platform) (request : Request) {numBytes : Nat} (h : numBytes ≤ request.serialize.length) :
    Runs.run (next P request) {} (sendOf numBytes) = {
      network := {
        client := { phase := .reading }
        toServer := ({} : Channel UInt8).write (request.serialize.take numBytes) }
      transferred := some numBytes } := by
  simp [sendOf, Sends.next, Sends.step, Event.isOther, Networking.step, h]

theorem not_meets_sendOf (P : Platform) {request : Request} {numBytes : Nat}
    (h : numBytes < request.serialize.length) :
    ¬ Runs.Meets (next P request) (fun s event => WaitsSent request (next P request s event)) {}
      (sendOf numBytes) := by
  intro hmeets
  have hwaits : WaitsSent request (Runs.run (next P request) {} (sendOf numBytes)) := hmeets.2.2.2.2.1
  rw [run_sendOf P request (Nat.le_of_lt h)] at hwaits
  have hwritten : request.serialize.take numBytes = request.serialize := hwaits rfl
  rw [List.take_eq_self_iff] at hwritten
  omega

theorem tenMillion_lt : 10000000 < 2 ^ 63 := by decide

/-- More than the send buffer of a socket holds. -/
def largeRequest : Request := Request.make .Put ⟨1⟩ (ByteString.zeros 10000000 tenMillion_lt)

/-- A quarter of the request fits the buffer. -/
theorem not_meets_waitsSent :
    ¬ Runs.Meets (next plainPlatform largeRequest)
      (fun s event => WaitsSent largeRequest (next plainPlatform largeRequest s event)) {} (sendOf 2500000) := by
  apply not_meets_sendOf
  have hsize : largeRequest.value.size = 10000000 := ByteString.size_zeros 10000000 tenMillion_lt
  rw [Request.length_serialize, hsize]
  omega

/-! ### The runs of the sessions -/

/-- An event of the sessions, in which everything is sent. -/
def complete (request : Request) : Event → List SendEvent
  | .onConnect => [.onConnect, .asyncSend request.serialize.length]
  | .onSend => [.onSend request.serialize.length]
  | event => [.other event]

/-- The network of a client whose send is complete once it has begun. -/
structure Simulates (request : Request) (s : Sends) (n : Network) : Prop where
  network : s.network = n
  unconnected : Unconnected n.client.phase → s.transferred = none
  sending : n.client.phase = .sending → s.transferred = some request.serialize.length

theorem Simulates.step {s : Sends} {n : Network} (h : Simulates request s n) {event : Event}
    (hfollow : ∀ bytes, event ≠ .followRequest bytes) :
    Simulates request (Runs.run (next P request) s (complete request event))
      (Networking.next P request n event) := by
  obtain ⟨rfl, hunconnected, hsending⟩ := h
  by_cases hother : event.isOther = true
  · have hcomplete : complete request event = [.other event] := by
      cases event with
      | onConnect => cases hother
      | onSend => cases hother
      | _ => rfl
    rw [hcomplete, Runs.run_cons, Runs.run_nil]
    unfold Sends.next Networking.next
    simp only [Sends.step, if_pos hother]
    cases hstep : Networking.step P request s.network event with
    | none => exact ⟨rfl, hunconnected, hsending⟩
    | some network =>
      refine ⟨rfl, fun hphase => hunconnected (unconnected_of_other hother hstep hphase), fun hphase => ?_⟩
      exact hsending ((phase_of_other hother hstep (Or.inl hphase)).symm.trans hphase)
  · cases event with
    | onConnect =>
      show Simulates request (Sends.next P request (Sends.next P request s .onConnect) (.asyncSend _)) _
      unfold Sends.next Networking.next
      by_cases hphase : s.network.client.phase = .connecting
      · have hnone := hunconnected (Or.inr (Or.inr hphase))
        simp only [Sends.step, Networking.step, hphase, hnone, if_true, Option.getD_some, true_and, le_refl,
          List.take_length]
        exact ⟨rfl, fun hearly => by simp [Unconnected] at hearly, fun _ => rfl⟩
      · have hbusy : ¬ (s.network.client.phase = .sending ∧ s.transferred = none ∧
            request.serialize.length ≤ request.serialize.length) := by
          rintro ⟨hsend, hnone, -⟩
          rw [hsending hsend] at hnone
          cases hnone
        simp only [Sends.step, Networking.step, if_neg hphase, Option.getD_none, if_neg hbusy]
        exact ⟨rfl, hunconnected, hsending⟩
    | onSend =>
      show Simulates request (Sends.next P request s (.onSend _)) _
      unfold Sends.next Networking.next
      by_cases hphase : s.network.client.phase = .sending
      · have hdue := And.intro hphase (hsending hphase)
        simp only [Sends.step, Networking.step, if_pos hphase, if_pos hdue, Option.getD_some]
        exact ⟨rfl, fun hearly => by simp [Unconnected] at hearly, fun hsend => by cases hsend⟩
      · simp only [Sends.step, Networking.step, hphase, false_and, if_false, Option.getD_none]
        exact ⟨rfl, hunconnected, hsending⟩
    | followRequest bytes => exact absurd rfl (hfollow bytes)
    | _ => exact absurd rfl hother

theorem Simulates.run {s : Sends} {n : Network} (h : Simulates request s n) {events : List Event}
    (hfollow : ∀ bytes, .followRequest bytes ∉ events) :
    Simulates request (Runs.run (next P request) s (events.flatMap (complete request)))
      (Runs.run (Networking.next P request) n events) := by
  induction events generalizing s n with
  | nil => exact h
  | cons event events ih =>
    rw [List.flatMap_cons, Runs.run_append, Runs.run_cons]
    refine ih (h.step ?_) (fun bytes hmem => hfollow bytes (List.mem_cons_of_mem _ hmem))
    rintro bytes rfl
    exact hfollow bytes (by simp)

/-- The runs of the sessions are the runs in which every send is complete. -/
theorem network_run_complete (P : Platform) (request : Request) {events : List Event}
    (hfollow : ∀ bytes, .followRequest bytes ∉ events) :
    (Runs.run (next P request) {} (events.flatMap (complete request))).network
      = Runs.run (Networking.next P request) {} events := by
  have hinitial : Simulates request {} {} := ⟨rfl, fun _ => rfl, fun hphase => by cases hphase⟩
  exact (hinitial.run hfollow).network

/-! ### Shorter sends -/

/-- The server has handled nothing, and waits as long as it lives; the client has been promised no value. -/
structure Unserved (request : Request) (n : Network) : Prop where
  serving : Serving request n.server n.toServer n.toClient
  receiving : Receiving request n.client n.server.handled n.toClient
  handled : n.server.handled = []

namespace Unserved

theorem initial (request : Request) : Unserved request {} :=
  ⟨(inv_initial request).serving, (inv_initial request).receiving, rfl⟩

theorem not_value {n : Network} (h : Unserved request n) (response : Response) :
    .ok response ∉ n.client.promise := by
  intro hmem
  obtain ⟨response', hcall, -⟩ := h.receiving.value response hmem
  rw [h.handled] at hcall
  cases hcall

theorem advance {n : Network} (h : Unserved request n) (hphase : n.client.phase ≠ .finished) (phase : ClientPhase) :
    Unserved request { n with client := { n.client with phase := phase } } :=
  ⟨h.serving, h.receiving.advance hphase phase, h.handled⟩

theorem write {n : Network} (h : Unserved request n) (bytes : List UInt8) :
    Unserved request { n with toServer := n.toServer.write bytes } :=
  ⟨h.serving.incoming fun _ hreads => hreads.write bytes, h.receiving, h.handled⟩

end Unserved

/-- Less than the request was written. -/
structure Shortened (request : Request) (n : Network) : Prop where
  part : n.toServer.written <+: request.serialize
  length_lt : n.toServer.written.length < request.serialize.length

theorem Shortened.remaining_ne_zero (hlawful : request.Lawful) {n : Network} (h : Shortened request n)
    (hunserved : Unserved request n) (hphase : n.server.phase = .reading) (hcontent : n.server.reader.content = true) :
    n.server.reader.remaining ≠ 0 :=
  (hunserved.serving.readsFrom hphase).remaining_ne_zero (framed_request hlawful) h.part h.length_lt hcontent

theorem handled_step {n n' : Network} {event : Event} (hstep : Networking.step P request n event = some n') :
    n'.server.handled = n.server.handled ∨
      n.server.phase = .reading ∧ n.server.reader.content = true ∧ n.server.reader.remaining = 0 := by
  cases Networking.step_cases hstep with
  | onRequestReceived hphase hcontent hremaining hserve => exact Or.inr ⟨hphase, hcontent, hremaining⟩
  | _ => exact Or.inl rfl

theorem Unserved.step (hlawful : request.Lawful) {n n' : Network} {event : Event} (h : Unserved request n)
    (hshort : Shortened request n) (hstep : Networking.step P request n event = some n') : Unserved request n' := by
  have hthrough : ReadsRequest request n := fun hphase hcontent hremaining =>
    absurd hremaining (hshort.remaining_ne_zero hlawful h hphase hcontent)
  obtain ⟨hserving, hreceiving⟩ := serving_receiving_step hlawful h.serving h.receiving hthrough hstep
  refine ⟨hserving, hreceiving, ?_⟩
  rcases handled_step hstep with heq | ⟨hphase, hcontent, hremaining⟩
  · rw [heq, h.handled]
  · exact absurd hremaining (hshort.remaining_ne_zero hlawful h hphase hcontent)

theorem Tracked.shortened {s : Sends} (h : Tracked request s)
    (hshort : s.transferred ≠ some request.serialize.length) : Shortened request s.network := by
  have hlt : s.transferred.getD 0 < request.serialize.length := by
    cases htransferred : s.transferred with
    | none =>
      rw [Option.getD_none, request.length_serialize]
      omega
    | some numBytes =>
      have hle := h.le
      rw [htransferred, Option.getD_some] at hle
      exact lt_of_le_of_ne hle (fun heq => hshort (htransferred.trans (congrArg some heq)))
  constructor
  · rw [h.written]
    exact List.take_prefix _ _
  · rw [h.written, List.length_take]
    omega

/-- A request is served only if the send has reported the whole of it. -/
def ServedIfSent (request : Request) (s : Sends) : Prop :=
  s.transferred ≠ some request.serialize.length → Unserved request s.network

theorem ServedIfSent.step (hlawful : request.Lawful) {s s' : Sends} {event : SendEvent} (htracked : Tracked request s)
    (h : ServedIfSent request s) (hstep : step P request s event = some s') : ServedIfSent request s' := by
  cases step_cases hstep with
  | onConnect hphase =>
    intro hshort
    exact (h hshort).advance (by rw [hphase]; decide) .sending
  | asyncSend hphase hnone hle =>
    intro _
    have hunserved : Unserved request s.network := h (by rw [hnone]; simp)
    exact hunserved.write _
  | onSend hphase htransferred =>
    intro hshort
    exact (h hshort).advance (by rw [hphase]; decide) .reading
  | other hother hnetwork =>
    intro hshort
    exact (h hshort).step hlawful (htracked.shortened hshort) hnetwork

theorem ServedIfSent.next (hlawful : request.Lawful) {s : Sends} (htracked : Tracked request s)
    (h : ServedIfSent request s) (event : SendEvent) : ServedIfSent request (next P request s event) := by
  unfold Sends.next
  cases hstep : Sends.step P request s event with
  | none => exact h
  | some s' => exact h.step hlawful htracked hstep

theorem served_run (P : Platform) {request : Request} (hlawful : request.Lawful) (events : List SendEvent) :
    Tracked request (Runs.run (next P request) {} events) ∧
      ServedIfSent request (Runs.run (next P request) {} events) := by
  apply Runs.run_inv (fun s => Tracked request s ∧ ServedIfSent request s) ?_
    (Runs.Meets.of_forall (next P request) {} fun event _ => trivial)
    ⟨tracked_initial request, fun _ => Unserved.initial request⟩
  intro s event hinv _
  exact ⟨hinv.1.next event, hinv.2.next hlawful hinv.1 event⟩

/-- After a send of less than the request nothing is handled and no value is promised, whatever happens. -/
theorem unserved_run (P : Platform) {request : Request} (hlawful : request.Lawful) (events : List SendEvent)
    (hshort : (Runs.run (next P request) {} events).transferred ≠ some request.serialize.length) :
    (Runs.run (next P request) {} events).network.server.handled = [] ∧
      ∀ response, .ok response ∉ (Runs.run (next P request) {} events).network.client.promise := by
  have hunserved := (served_run P hlawful events).2 hshort
  exact ⟨hunserved.handled, hunserved.not_value⟩

/-- Neither session has come to its end. -/
structure Waiting (n : Network) : Prop where
  client : n.client.phase ≠ .finished
  server : n.server.phase = .created ∨ n.server.phase = .reading

theorem Waiting.step (hlawful : request.Lawful) {n n' : Network} {event : Event} (h : Waiting n)
    (hunserved : Unserved request n) (hshort : Shortened request n) (herror : event.isError = false)
    (hstep : Networking.step P request n event = some n') : Waiting n' := by
  cases Networking.step_cases hstep with
  | runThrows hphase => cases herror
  | clientError hrun hphase => cases herror
  | serverError haccepted hphase => cases herror
  | onReceive hphase hcontent hremaining =>
    -- nothing was written to the client
    have hreads := (hunserved.receiving.reads h.client).1
    exact absurd (hunserved.serving.toClient_eq_nil hunserved.handled) (hreads.written_ne_nil hcontent (by decide))
  | onRequestReceived hphase hcontent hremaining hserve =>
    exact absurd hremaining (hshort.remaining_ne_zero hlawful hunserved hphase hcontent)
  | onResponseSent hphase =>
    have hserver := h.server
    simp [hphase] at hserver
  | accept hphase => exact ⟨h.client, Or.inr rfl⟩
  | run hphase => exact ⟨by simp, h.server⟩
  | onResolve hphase => exact ⟨by simp, h.server⟩
  | onConnect hphase => exact ⟨by simp, h.server⟩
  | onSend hphase => exact ⟨by simp, h.server⟩
  | _ => exact ⟨h.client, h.server⟩

/-- The sessions end only if the send has reported the whole request. -/
def EndsIfSent (request : Request) (s : Sends) : Prop :=
  s.transferred ≠ some request.serialize.length → Waiting s.network

theorem EndsIfSent.step (hlawful : request.Lawful) {s s' : Sends} {event : SendEvent} (htracked : Tracked request s)
    (hserved : ServedIfSent request s) (h : EndsIfSent request s)
    (herror : ∀ e, event = .other e → e.isError = false) (hstep : step P request s event = some s') :
    EndsIfSent request s' := by
  cases step_cases hstep with
  | onConnect hphase => exact fun hshort => ⟨by simp, (h hshort).server⟩
  | asyncSend hphase hnone hle =>
    intro _
    have hwaiting : Waiting s.network := h (by rw [hnone]; simp)
    exact ⟨hwaiting.client, hwaiting.server⟩
  | onSend hphase htransferred => exact fun hshort => ⟨by simp, (h hshort).server⟩
  | @other event network hother hnetwork =>
    intro hshort
    exact (h hshort).step hlawful (hserved hshort) (htracked.shortened hshort) (herror event rfl) hnetwork

/-- After a send of less than the request, client and server wait until there is an error. -/
theorem waiting_run (P : Platform) {request : Request} (hlawful : request.Lawful) {events : List SendEvent}
    (hevents : ∀ event, .other event ∈ events → event.isError = false)
    (hshort : (Runs.run (next P request) {} events).transferred ≠ some request.serialize.length) :
    Waiting (Runs.run (next P request) {} events).network := by
  have hmeets : Runs.Meets (next P request) (fun _ event => ∀ e, event = .other e → e.isError = false) {} events :=
    Runs.Meets.of_forall _ _ fun event hmem e heq => hevents e (heq ▸ hmem)
  refine (Runs.run_inv
    (fun s => (Tracked request s ∧ ServedIfSent request s) ∧ EndsIfSent request s) ?_ hmeets
    ⟨⟨tracked_initial request, fun _ => Unserved.initial request⟩, fun _ => ⟨by simp, Or.inl rfl⟩⟩).2 hshort
  rintro s event ⟨⟨htracked, hserved⟩, hends⟩ herror
  refine ⟨⟨htracked.next event, hserved.next hlawful htracked event⟩, ?_⟩
  unfold Sends.next
  cases hstep : Sends.step P request s event with
  | none => exact hends
  | some s' => exact hends.step hlawful htracked hserved herror hstep

end Sends

end Networking

end OmxDb
