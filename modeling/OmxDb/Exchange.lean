import OmxDb.Sessions

/-!
# What an exchange comes to

Three invariants hold in every run of the two sessions: what the channel to the server carries (`Sent`), what the
server has read and handled (`Serving`), and what the client has read and promised (`Receiving`). So the request is
handled at most once and the promise is set at most once, to what was returned. A run without errors comes to rest
only where the promise is set (`AtRest.client_finished`), whatever the chunks were (`sessions_run`).
-/

namespace OmxDb

namespace Networking

open LittleEndian Framing

/-! ### Invariants -/

/-- The channel carries nothing before the client has connected, and the request from then on. -/
structure Sent (request : Request) (phase : ClientPhase) (toServer : Channel UInt8) : Prop where
  nothing : phase = .created ∨ phase = .resolving ∨ phase = .connecting → toServer.written = []
  frame : phase = .sending ∨ phase = .reading → toServer.written ≠ []
  written : toServer.written = [] ∨ ∃ tail, toServer.written = request.serialize ++ tail

/-- What the channel to the client carries behind a call of `handle`. -/
def Written (toClient : Channel UInt8) : Except Fault Response → Prop
  | .error _ => toClient.written = []
  | .ok response => (∃ responseStatus value, response = Response.make responseStatus value) ∧
      ∃ tail, toClient.written = response.serialize ++ tail

/-- Until the server has read the request, `handle` was not called; it is called once, with the request. -/
structure Serving (request : Request) (server : ServerSession) (toServer toClient : Channel UInt8) : Prop where
  reads : server.phase = .created ∨ server.phase = .reading →
    ReadsFrom server.reader toServer ∧ server.handled = []
  handled : server.handled = [] ∧ toClient.written = [] ∨
    ∃ result, server.handled = [(request, result)] ∧ Written toClient result

/-- Until the client has read the response, the promise was not set; it is set once, to the response of `handle`
where its size fits the content length. -/
structure Receiving (request : Request) (client : ClientSession)
    (handled : List (Request × Except Fault Response)) (toClient : Channel UInt8) : Prop where
  reads : client.phase ≠ .finished → ReadsFrom client.reader toClient ∧ client.promise = []
  once : client.promise.length ≤ 1
  value : ∀ response', .ok response' ∈ client.promise → ∃ response, handled = [(request, .ok response)] ∧
    (5 + response.value.size < 2 ^ 32 → response' = response)

structure Inv (request : Request) (n : Network) : Prop where
  sent : Sent request n.client.phase n.toServer
  serving : Serving request n.server n.toServer n.toClient
  receiving : Receiving request n.client n.server.handled n.toClient

theorem inv_initial (request : Request) : Inv request {} where
  sent := {
    nothing := fun _ => rfl
    frame := fun h => by simp at h
    written := Or.inl rfl }
  serving := {
    reads := fun _ => ⟨Reader.reads_initial, rfl⟩
    handled := Or.inl ⟨rfl, rfl⟩ }
  receiving := {
    reads := fun _ => ⟨Reader.reads_initial, rfl⟩
    once := Nat.zero_le 1
    value := fun response' h => by cases h }

/-! ### What an event does to one side -/

namespace Sent

variable {request : Request} {phase : ClientPhase} {toServer : Channel UInt8} (h : Sent request phase toServer)
include h

theorem channel {toServer' : Channel UInt8} (hwritten : toServer'.written = toServer.written) :
    Sent request phase toServer' where
  nothing hphase := by rw [hwritten, h.nothing hphase]
  frame hphase := by
    rw [hwritten]
    exact h.frame hphase
  written := by
    rw [hwritten]
    exact h.written

theorem follow (hwritten : toServer.written ≠ []) (bytes : List UInt8) :
    Sent request phase (toServer.write bytes) where
  nothing hphase := absurd (h.nothing hphase) hwritten
  frame _ hnil := hwritten (List.append_eq_nil_iff.mp hnil).1
  written := by
    obtain ⟨tail, htail⟩ := h.written.resolve_left hwritten
    refine Or.inr ⟨tail ++ bytes, ?_⟩
    show toServer.written ++ bytes = _
    rw [htail, List.append_assoc]

theorem finish : Sent request .finished toServer where
  nothing hphase := by simp at hphase
  frame hphase := by simp at hphase
  written := h.written

end Sent

namespace Serving

variable {request : Request} {server : ServerSession} {toServer toClient : Channel UInt8}
  (h : Serving request server toServer toClient)
include h

theorem handled_eq_nil (hphase : server.phase = .reading) : server.handled = [] := (h.reads (Or.inr hphase)).2

theorem readsFrom (hphase : server.phase = .reading) : ReadsFrom server.reader toServer :=
  (h.reads (Or.inr hphase)).1

theorem toClient_eq_nil (hnil : server.handled = []) : toClient.written = [] := by
  rcases h.handled with ⟨-, hnothing⟩ | ⟨result, hcall, -⟩
  · exact hnothing
  · rw [hnil] at hcall
    cases hcall

theorem incoming {toServer' : Channel UInt8} (hreads : ∀ reader, ReadsFrom reader toServer →
    ReadsFrom reader toServer') : Serving request server toServer' toClient where
  reads hphase := ⟨hreads _ (h.reads hphase).1, (h.reads hphase).2⟩
  handled := h.handled

theorem outgoing {toClient' : Channel UInt8} (hwritten : toClient'.written = toClient.written) :
    Serving request server toServer toClient' where
  reads := h.reads
  handled := by
    rcases h.handled with ⟨hnil, hnothing⟩ | ⟨result, hcall, hresult⟩
    · exact Or.inl ⟨hnil, by rw [hwritten, hnothing]⟩
    · refine Or.inr ⟨result, hcall, ?_⟩
      unfold Written at hresult ⊢
      rw [hwritten]
      exact hresult

theorem follow (hwritten : toClient.written ≠ []) (bytes : List UInt8) :
    Serving request server toServer (toClient.write bytes) where
  reads := h.reads
  handled := by
    rcases h.handled with ⟨-, hnothing⟩ | ⟨result, hcall, hresult⟩
    · exact absurd hnothing hwritten
    · refine Or.inr ⟨result, hcall, ?_⟩
      cases result with
      | error fault => exact absurd hresult hwritten
      | ok response =>
        obtain ⟨hmade, tail, htail⟩ := hresult
        refine ⟨hmade, tail ++ bytes, ?_⟩
        show toClient.written ++ bytes = _
        rw [htail, List.append_assoc]

theorem leave {phase : ServerPhase} (hphase : phase = .writing ∨ phase = .finished) :
    Serving request { server with phase := phase } toServer toClient where
  reads hread := by
    have hread' : phase = .created ∨ phase = .reading := hread
    rcases hphase with rfl | rfl
    · simp at hread'
    · simp at hread'
  handled := h.handled

theorem accept (hphase : server.phase = .created) :
    Serving request { server with phase := .reading } toServer toClient where
  reads _ := h.reads (Or.inl hphase)
  handled := h.handled

theorem receive (hphase : server.phase = .reading) {numBytes : Nat} (hle : numBytes ≤ server.reader.remaining)
    {bytes : List UInt8} {toServer' : Channel UInt8} (htake : toServer.take numBytes = some (bytes, toServer')) :
    Serving request { server with reader := server.reader.receive bytes } toServer' toClient where
  reads _ := ⟨(h.readsFrom hphase).receive htake hle, h.handled_eq_nil hphase⟩
  handled := h.handled

theorem onContentLengthReceived (hphase : server.phase = .reading) (hcontent : server.reader.content = false)
    (hremaining : server.reader.remaining = 0) :
    Serving request server.onContentLengthReceived toServer toClient where
  reads _ := ⟨(h.readsFrom hphase).expect hcontent hremaining, h.handled_eq_nil hphase⟩
  handled := h.handled

end Serving

namespace Receiving

variable {request : Request} {client : ClientSession} {handled : List (Request × Except Fault Response)}
  {toClient : Channel UInt8} (h : Receiving request client handled toClient)
include h

theorem promise_eq_nil (hphase : client.phase ≠ .finished) : client.promise = [] := (h.reads hphase).2

theorem incoming {toClient' : Channel UInt8} (hreads : ∀ reader, ReadsFrom reader toClient →
    ReadsFrom reader toClient') : Receiving request client handled toClient' where
  reads hphase := ⟨hreads _ (h.reads hphase).1, (h.reads hphase).2⟩
  once := h.once
  value := h.value

theorem advance (hphase : client.phase ≠ .finished) (phase : ClientPhase) :
    Receiving request { client with phase := phase } handled toClient where
  reads _ := h.reads hphase
  once := h.once
  value := h.value

theorem call (hnil : handled = []) (calls : List (Request × Except Fault Response)) :
    Receiving request client calls toClient where
  reads := h.reads
  once := h.once
  value response' hmem := by
    obtain ⟨response, hcall, -⟩ := h.value response' hmem
    rw [hnil] at hcall
    cases hcall

theorem onError (hphase : client.phase ≠ .finished) (message : String) :
    Receiving request (client.onError message) handled toClient where
  reads hread := absurd rfl hread
  once := by
    show (client.promise ++ [Except.error message]).length ≤ 1
    rw [h.promise_eq_nil hphase]
    exact le_refl 1
  value response' hmem := by
    have hmem' : Except.ok response' ∈ client.promise ++ [.error message] := hmem
    rw [h.promise_eq_nil hphase] at hmem'
    simp at hmem'

theorem receive {numBytes : Nat} (hle : numBytes ≤ client.reader.remaining)
    {bytes : List UInt8} {toClient' : Channel UInt8} (htake : toClient.take numBytes = some (bytes, toClient')) :
    Receiving request { client with reader := client.reader.receive bytes } handled toClient' where
  reads hread := ⟨(h.reads hread).1.receive htake hle, (h.reads hread).2⟩
  once := h.once
  value := h.value

theorem onContentLengthReceive (hcontent : client.reader.content = false)
    (hremaining : client.reader.remaining = 0) :
    Receiving request client.onContentLengthReceive handled toClient where
  reads hread := ⟨(h.reads hread).1.expect hcontent hremaining, (h.reads hread).2⟩
  once := h.once
  value := h.value

end Receiving

/-- With content behind the header, the client has read from a response. -/
theorem Serving.exists_response {request : Request} {server : ServerSession} {toServer toClient : Channel UInt8}
    (h : Serving request server toServer toClient) {reader : Reader UInt8 4} (hreads : ReadsFrom reader toClient)
    (hcontent : reader.content = true) : ∃ response, server.handled = [(request, .ok response)] ∧
      Written toClient (.ok response) := by
  have hnonempty := hreads.written_ne_nil hcontent (by decide)
  rcases h.handled with ⟨-, hnil⟩ | ⟨result, hcall, hresult⟩
  · exact absurd hnil hnonempty
  · cases result with
    | error fault => exact absurd hresult hnonempty
    | ok response => exact ⟨response, hcall, hresult⟩

theorem Written.buffer_eq {response : Response} {toClient : Channel UInt8} (h : Written toClient (.ok response))
    (hsize : 5 + response.value.size < 2 ^ 32) {reader : Reader UInt8 4} (hreads : ReadsFrom reader toClient)
    (hcontent : reader.content = true) (hremaining : reader.remaining = 0) (target : Response) :
    target.deserialize reader.buffer = .ok response := by
  obtain ⟨⟨responseStatus, value, hmade⟩, tail, htail⟩ := h
  have hlawful : response.Lawful := by
    rw [hmade] at hsize ⊢
    exact Response.make_lawful hsize
  rw [hreads.buffer_eq (framed_response hlawful) htail hcontent hremaining]
  exact deserialize_response hlawful target

theorem Receiving.onReceive {request : Request} {client : ClientSession} {server : ServerSession}
    {toServer toClient : Channel UInt8} (h : Receiving request client server.handled toClient)
    (hserving : Serving request server toServer toClient) (hphase : client.phase = .reading)
    (hcontent : client.reader.content = true) (hremaining : client.reader.remaining = 0) :
    Receiving request client.onReceive server.handled toClient := by
  obtain ⟨hreads, hpromise⟩ := h.reads (by rw [hphase]; decide)
  obtain ⟨response, hcall, hwritten⟩ := hserving.exists_response hreads hcontent
  unfold ClientSession.onReceive
  cases hparse : (Response.make .UnknownError ByteString.empty).deserialize client.reader.buffer with
  | error fault => exact ⟨fun hread => absurd rfl hread, h.once, h.value⟩
  | ok response' =>
    dsimp only
    rw [hpromise]
    refine ⟨fun hread => absurd rfl hread, le_refl 1, ?_⟩
    intro response'' hmem
    have heq : response'' = response' := by simpa using hmem
    subst heq
    refine ⟨response, hcall, ?_⟩
    intro hsize
    have hdeserialize := hwritten.buffer_eq hsize hreads hcontent hremaining
      (Response.make .UnknownError ByteString.empty)
    rw [hparse] at hdeserialize
    exact Except.ok.inj hdeserialize

theorem Serving.onRequestReceived_eq {request : Request} (hlawful : request.Lawful) {server : ServerSession}
    {toServer toClient : Channel UInt8} (h : Serving request server toServer toClient) {tail : List UInt8}
    (htail : toServer.written = request.serialize ++ tail) (hphase : server.phase = .reading)
    (hcontent : server.reader.content = true) (hremaining : server.reader.remaining = 0) (P : Platform)
    (opened : SnapshotStreams) (store : Store) :
    server.onRequestReceived P opened store =
      match (StorageEngine.handle P opened store request).2 with
      | .error fault => ({ server with
          phase := .finished
          reader := { server.reader with buffer := [] }
          handled := [(request, .error fault)] }, none)
      | .ok response => ({ server with
          phase := .writing
          reader := { server.reader with buffer := [] }
          handled := [(request, .ok response)] }, some response) := by
  have hbuffer := (h.readsFrom hphase).buffer_eq (framed_request hlawful) htail hcontent hremaining
  unfold ServerSession.onRequestReceived ServerSession.processRequest
  rw [hbuffer, deserialize_request hlawful, h.handled_eq_nil hphase]
  dsimp only
  cases (StorageEngine.handle P opened store request).2 with
  | error fault => rfl
  | ok response => rfl

/-! ### Runs -/

theorem Sent.step {P : Platform} {request : Request} {n n' : Network} {event : Event}
    (h : Sent request n.client.phase n.toServer) (hstep : step P request n event = some n') :
    Sent request n'.client.phase n'.toServer := by
  cases step_cases hstep with
  | run hphase =>
    refine ⟨fun _ => h.nothing (Or.inl hphase), fun hlater => ?_, h.written⟩
    simp at hlater
  | runThrows hphase => exact h.finish
  | onResolve hphase =>
    refine ⟨fun _ => h.nothing (Or.inr (Or.inl hphase)), fun hlater => ?_, h.written⟩
    simp at hlater
  | onConnect hphase =>
    have hnil := h.nothing (Or.inr (Or.inr hphase))
    have hwritten : (n.toServer.write request.serialize).written = request.serialize := by
      show n.toServer.written ++ request.serialize = _
      rw [hnil, List.nil_append]
    refine ⟨?_, ?_, Or.inr ⟨[], by rw [hwritten, List.append_nil]⟩⟩
    · intro hearlier
      simp at hearlier
    · intro _ hempty
      rw [hwritten] at hempty
      have hlength := request.length_serialize
      rw [hempty, List.length_nil] at hlength
      omega
  | onSend hphase =>
    refine ⟨fun hearlier => ?_, fun _ => h.frame (Or.inl hphase), h.written⟩
    simp at hearlier
  | onReceive hphase hcontent hremaining =>
    have hfinished := n.client.phase_onReceive
    rw [hfinished]
    exact h.finish
  | clientError hrun hphase => exact h.finish
  | receiveRequest hphase hle htake => exact h.channel (Channel.take_eq htake).1
  | deliverRequest hdeliver => exact h.channel (Channel.deliver_eq hdeliver).1
  | @followRequest bytes hwritten => exact h.follow hwritten bytes
  | _ => exact h

/-- A server that has read content to its end has read the request. -/
def ReadsRequest (request : Request) (n : Network) : Prop :=
  n.server.phase = .reading → n.server.reader.content = true → n.server.reader.remaining = 0 →
    ∃ tail, n.toServer.written = request.serialize ++ tail

theorem Inv.readsRequest {request : Request} {n : Network} (h : Inv request n) : ReadsRequest request n := by
  intro hphase hcontent _
  exact h.sent.written.resolve_left ((h.serving.readsFrom hphase).written_ne_nil hcontent (by decide))

/-- What the server and the client know after a step, whatever the client has sent so far. -/
theorem serving_receiving_step {P : Platform} {request : Request} (hlawful : request.Lawful) {n n' : Network}
    {event : Event} (hserving : Serving request n.server n.toServer n.toClient)
    (hreceiving : Receiving request n.client n.server.handled n.toClient) (hrequest : ReadsRequest request n)
    (hstep : step P request n event = some n') :
    Serving request n'.server n'.toServer n'.toClient ∧
      Receiving request n'.client n'.server.handled n'.toClient := by
  cases step_cases hstep with
  | run hphase => exact ⟨hserving, hreceiving.advance (by rw [hphase]; decide) _⟩
  | @runThrows what hphase => exact ⟨hserving, hreceiving.onError (by rw [hphase]; decide) what⟩
  | onResolve hphase => exact ⟨hserving, hreceiving.advance (by rw [hphase]; decide) _⟩
  | onConnect hphase =>
    exact ⟨hserving.incoming fun reader hreads => hreads.write _, hreceiving.advance (by rw [hphase]; decide) _⟩
  | onSend hphase => exact ⟨hserving, hreceiving.advance (by rw [hphase]; decide) _⟩
  | receiveResponse hphase hle htake =>
    exact ⟨hserving.outgoing (Channel.take_eq htake).1, hreceiving.receive hle htake⟩
  | onContentLengthReceive hphase hcontent hremaining =>
    exact ⟨hserving, hreceiving.onContentLengthReceive hcontent hremaining⟩
  | onReceive hphase hcontent hremaining =>
    exact ⟨hserving, hreceiving.onReceive hserving hphase hcontent hremaining⟩
  | @clientError message hrun hphase => exact ⟨hserving, hreceiving.onError hphase message⟩
  | accept hphase => exact ⟨hserving.accept hphase, hreceiving⟩
  | receiveRequest hphase hle htake => exact ⟨hserving.receive hphase hle htake, hreceiving⟩
  | onContentLengthReceived hphase hcontent hremaining =>
    exact ⟨hserving.onContentLengthReceived hphase hcontent hremaining, hreceiving⟩
  | @onRequestReceived opened store server written hphase hcontent hremaining hserve =>
    obtain ⟨tail, htail⟩ := hrequest hphase hcontent hremaining
    have hnil := hserving.handled_eq_nil hphase
    have hnothing := hserving.toClient_eq_nil hnil
    rw [hserving.onRequestReceived_eq hlawful htail hphase hcontent hremaining] at hserve
    cases hresult : (StorageEngine.handle P opened store request).2 with
    | error fault =>
      rw [hresult] at hserve
      cases hserve
      refine ⟨⟨?_, Or.inr ⟨.error fault, rfl, hnothing⟩⟩, hreceiving.call hnil _⟩
      intro hread
      simp at hread
    | ok response =>
      rw [hresult] at hserve
      cases hserve
      refine ⟨⟨?_, Or.inr ⟨.ok response, rfl, handle_made hresult, [], ?_⟩⟩,
        (hreceiving.call hnil _).incoming fun reader hreads => hreads.write _⟩
      · intro hread
        simp at hread
      · show n.toClient.written ++ response.serialize = _
        rw [hnothing, List.nil_append, List.append_nil]
  | onResponseSent hphase => exact ⟨hserving.leave (Or.inr rfl), hreceiving⟩
  | serverError haccepted hphase => exact ⟨hserving.leave (Or.inr rfl), hreceiving⟩
  | deliverRequest hdeliver =>
    exact ⟨hserving.incoming fun reader hreads => hreads.deliver hdeliver, hreceiving⟩
  | deliverResponse hdeliver =>
    exact ⟨hserving.outgoing (Channel.deliver_eq hdeliver).1,
      hreceiving.incoming fun reader hreads => hreads.deliver hdeliver⟩
  | @followRequest bytes hwritten =>
    exact ⟨hserving.incoming fun reader hreads => hreads.write bytes, hreceiving⟩
  | @followResponse bytes hwritten =>
    exact ⟨hserving.follow hwritten bytes, hreceiving.incoming fun reader hreads => hreads.write bytes⟩

theorem Inv.step {P : Platform} {request : Request} (hlawful : request.Lawful) {n n' : Network} {event : Event}
    (h : Inv request n) (hstep : step P request n event = some n') : Inv request n' := by
  obtain ⟨hserving, hreceiving⟩ := serving_receiving_step hlawful h.serving h.receiving h.readsRequest hstep
  exact ⟨h.sent.step hstep, hserving, hreceiving⟩

/-- `handle` returned a response whose size fits the content length. -/
def Short (result : Except Fault Response) : Prop :=
  ∃ response, result = .ok response ∧ 5 + response.value.size < 2 ^ 32

/-- Without errors the server only stops reading to call `handle`, and the client only to set the promise to a
value, if it can parse the response. -/
structure Orderly (n : Network) : Prop where
  client : n.client.phase = .finished → (∀ call ∈ n.server.handled, Short call.2) →
    ∃ response, n.client.promise = [.ok response]
  server : n.server.phase = .writing ∨ n.server.phase = .finished → n.server.handled ≠ []

theorem orderly_initial : Orderly {} where
  client hphase := by cases hphase
  server hphase := by simp at hphase

theorem Orderly.advance {n n' : Network} (h : Orderly n) (hserver : n'.server = n.server)
    (hphase : n'.client.phase ≠ .finished) : Orderly n' where
  client hfinished := absurd hfinished hphase
  server := by
    rw [hserver]
    exact h.server

theorem Orderly.step {P : Platform} {request : Request} (hlawful : request.Lawful) {n n' : Network} {event : Event}
    (h : Orderly n) (hinv : Inv request n) (herror : event.isError = false)
    (hstep : step P request n event = some n') : Orderly n' := by
  cases step_cases hstep with
  | runThrows hphase => cases herror
  | clientError hrun hphase => cases herror
  | serverError haccepted hphase => cases herror
  | run hphase => exact h.advance rfl (by simp)
  | onResolve hphase => exact h.advance rfl (by simp)
  | onConnect hphase => exact h.advance rfl (by simp)
  | onSend hphase => exact h.advance rfl (by simp)
  | onReceive hphase hcontent hremaining =>
    refine ⟨?_, h.server⟩
    intro _ hshort
    obtain ⟨hreads, hpromise⟩ := hinv.receiving.reads (by rw [hphase]; decide)
    obtain ⟨response, hcall, hwritten⟩ := hinv.serving.exists_response hreads hcontent
    obtain ⟨response', hresult, hsize⟩ := hshort (request, .ok response) (by rw [hcall]; simp)
    cases hresult
    have hparse := hwritten.buffer_eq hsize hreads hcontent hremaining
      (Response.make .UnknownError ByteString.empty)
    refine ⟨response, ?_⟩
    unfold ClientSession.onReceive
    rw [hparse]
    dsimp only
    rw [hpromise]
    rfl
  | accept hphase => exact ⟨h.client, fun hlater => by simp at hlater⟩
  | @onRequestReceived opened store server written hphase hcontent hremaining hserve =>
    obtain ⟨tail, htail⟩ := hinv.readsRequest hphase hcontent hremaining
    have hnil := hinv.serving.handled_eq_nil hphase
    -- a client that is through has its value from before this call
    have hclient : n.client.phase = .finished → ∃ response, n.client.promise = [.ok response] := by
      intro hfinished
      apply h.client hfinished
      rw [hnil]
      intro call hcall
      cases hcall
    rw [hinv.serving.onRequestReceived_eq hlawful htail hphase hcontent hremaining] at hserve
    cases hresult : (StorageEngine.handle P opened store request).2 with
    | error fault =>
      rw [hresult] at hserve
      cases hserve
      exact ⟨fun hfinished _ => hclient hfinished, fun _ => List.cons_ne_nil _ _⟩
    | ok response =>
      rw [hresult] at hserve
      cases hserve
      exact ⟨fun hfinished _ => hclient hfinished, fun _ => List.cons_ne_nil _ _⟩
  | onResponseSent hphase => exact ⟨h.client, fun _ => h.server (Or.inl hphase)⟩
  | _ => exact ⟨h.client, h.server⟩

section rest

variable {P : Platform} {request : Request} {n : Network} (hrest : AtRest P request n)
include hrest

theorem AtRest.toServer_taken (hphase : n.server.phase = .reading) (hremaining : n.server.reader.remaining ≠ 0) :
    n.toServer.taken = n.toServer.written := by
  have hdeliver := hrest (.deliverRequest 1) rfl rfl
  have htake := hrest (.receiveRequest 1) rfl rfl
  simp only [Networking.step] at hdeliver htake
  rw [if_pos ⟨hphase, by omega⟩] at htake
  exact Channel.taken_eq_written (Option.map_eq_none_iff.mp hdeliver) (Option.map_eq_none_iff.mp htake)

theorem AtRest.toClient_taken (hphase : n.client.phase = .reading) (hremaining : n.client.reader.remaining ≠ 0) :
    n.toClient.taken = n.toClient.written := by
  have hdeliver := hrest (.deliverResponse 1) rfl rfl
  have htake := hrest (.receiveResponse 1) rfl rfl
  simp only [Networking.step] at hdeliver htake
  rw [if_pos ⟨hphase, by omega⟩] at htake
  exact Channel.taken_eq_written (Option.map_eq_none_iff.mp hdeliver) (Option.map_eq_none_iff.mp htake)

theorem AtRest.handled_ne_nil (hlawful : request.Lawful) (hinv : Inv request n) (horderly : Orderly n)
    (hwritten : n.toServer.written ≠ []) : n.server.handled ≠ [] := by
  obtain ⟨tail, htail⟩ := hinv.sent.written.resolve_left hwritten
  cases hphase : n.server.phase with
  | created => exact (hrest.not_steps (.accept hphase) rfl rfl).elim
  | reading =>
    have hreads := hinv.serving.readsFrom hphase
    have hremaining : n.server.reader.remaining = 0 := by
      by_contra hmore
      exact hmore (hreads.remaining_eq_zero (framed_request hlawful) htail (hrest.toServer_taken hphase hmore))
    cases hcontent : n.server.reader.content with
    | false => exact (hrest.not_steps (.onContentLengthReceived hphase hcontent hremaining) rfl rfl).elim
    | true =>
      have hsteps : Steps P request n (.onRequestReceived {} ⟨{}, {}⟩) _ :=
        .onRequestReceived hphase hcontent hremaining rfl
      exact (hrest.not_steps hsteps rfl rfl).elim
  | writing => exact horderly.server (Or.inl hphase)
  | finished => exact horderly.server (Or.inr hphase)

theorem AtRest.client_finished (hlawful : request.Lawful) (hinv : Inv request n) (horderly : Orderly n)
    (hshort : ∀ call ∈ n.server.handled, Short call.2) : n.client.phase = .finished := by
  cases hphase : n.client.phase with
  | created => exact (hrest.not_steps (.run hphase) rfl rfl).elim
  | resolving => exact (hrest.not_steps (.onResolve hphase) rfl rfl).elim
  | connecting => exact (hrest.not_steps (.onConnect hphase) rfl rfl).elim
  | sending => exact (hrest.not_steps (.onSend hphase) rfl rfl).elim
  | reading =>
    have hreads := (hinv.receiving.reads (by rw [hphase]; decide)).1
    have hhandled := hrest.handled_ne_nil hlawful hinv horderly (hinv.sent.frame (Or.inr hphase))
    -- the response was written
    obtain ⟨response, hwritten, hsize⟩ : ∃ response, Written n.toClient (.ok response) ∧
        5 + response.value.size < 2 ^ 32 := by
      rcases hinv.serving.handled with ⟨hnil, -⟩ | ⟨result, hcall, hresult⟩
      · exact absurd hnil hhandled
      · obtain ⟨response, heq, hsize⟩ := hshort (request, result) (by rw [hcall]; simp)
        have heq' : result = .ok response := heq
        rw [heq'] at hresult
        exact ⟨response, hresult, hsize⟩
    obtain ⟨⟨responseStatus, value, hmade⟩, tail, htail⟩ := hwritten
    have hframe : Reader.Framed 4 (fun data => (contentLengthOf data).toNat) response.serialize := by
      apply framed_response
      rw [hmade] at hsize ⊢
      exact Response.make_lawful hsize
    have hremaining : n.client.reader.remaining = 0 := by
      by_contra hmore
      exact hmore (hreads.remaining_eq_zero hframe htail (hrest.toClient_taken hphase hmore))
    cases hcontent : n.client.reader.content with
    | false => exact (hrest.not_steps (.onContentLengthReceive hphase hcontent hremaining) rfl rfl).elim
    | true => exact (hrest.not_steps (.onReceive hphase hcontent hremaining) rfl rfl).elim
  | finished => rfl

end rest

/-- `Database::handle` was called at most once, and only with the request. -/
def HandledOnce (request : Request) (n : Network) : Prop :=
  n.server.handled.length ≤ 1 ∧ ∀ call ∈ n.server.handled, call.1 = request

/-- The promise was set at most once, and only to the response `handle` returned, if its size fits. -/
def PromisedOnce (n : Network) : Prop :=
  n.client.promise.length ≤ 1 ∧ ∀ response', .ok response' ∈ n.client.promise →
    ∃ call ∈ n.server.handled, ∃ response, call.2 = .ok response ∧
      (5 + response.value.size < 2 ^ 32 → response' = response)

/-- The promise is set, to what `handle` returned. -/
def Fulfilled (request : Request) (n : Network) : Prop :=
  ∃ response, n.server.handled = [(request, .ok response)] ∧ n.client.promise = [.ok response]

theorem Inv.handledOnce {request : Request} {n : Network} (h : Inv request n) : HandledOnce request n := by
  rcases h.serving.handled with ⟨hnil, -⟩ | ⟨result, hcall, -⟩
  · refine ⟨by rw [hnil]; exact Nat.zero_le 1, ?_⟩
    rw [hnil]
    intro call hmem
    cases hmem
  · refine ⟨by rw [hcall]; exact le_refl 1, ?_⟩
    rw [hcall]
    intro call hmem
    rw [List.mem_singleton.mp hmem]

theorem Inv.promisedOnce {request : Request} {n : Network} (h : Inv request n) : PromisedOnce n := by
  refine ⟨h.receiving.once, ?_⟩
  intro response' hmem
  obtain ⟨response, hcall, hequal⟩ := h.receiving.value response' hmem
  exact ⟨(request, .ok response), by rw [hcall]; simp, response, rfl, hequal⟩

theorem Orderly.fulfilled {P : Platform} {request : Request} (hlawful : request.Lawful) {n : Network}
    (h : Orderly n) (hinv : Inv request n) (hrest : AtRest P request n)
    (hshort : ∀ call ∈ n.server.handled, Short call.2) : Fulfilled request n := by
  obtain ⟨response', hpromise⟩ := h.client (hrest.client_finished hlawful hinv h hshort) hshort
  obtain ⟨response, hcall, hequal⟩ := hinv.receiving.value response' (by rw [hpromise]; simp)
  obtain ⟨response'', hresult, hsize⟩ := hshort (request, .ok response) (by rw [hcall]; simp)
  cases hresult
  refine ⟨response, hcall, ?_⟩
  rw [hpromise, hequal hsize]

theorem Inv.run {P : Platform} {request : Request} (hlawful : request.Lawful) {n : Network} (h : Inv request n)
    (events : List Event) : Inv request (Runs.run (next P request) n events) := by
  apply Runs.run_inv (Inv request) ?_ (Runs.Meets.of_forall (next P request) n fun event _ => trivial) h
  intro n event hinv _
  unfold next
  cases hstep : Networking.step P request n event with
  | none => exact hinv
  | some n' => exact hinv.step hlawful hstep

theorem Orderly.run {P : Platform} {request : Request} (hlawful : request.Lawful) {n : Network} (h : Orderly n)
    (hinv : Inv request n) {events : List Event} (hevents : ∀ event ∈ events, event.isError = false) :
    Orderly (Runs.run (next P request) n events) := by
  have hmeets := Runs.Meets.of_forall (next P request) n hevents
  refine (Runs.run_inv (fun n => Inv request n ∧ Orderly n) ?_ hmeets ⟨hinv, h⟩).2
  rintro n event ⟨hinv, h⟩ herror
  unfold next
  cases hstep : Networking.step P request n event with
  | none => exact ⟨hinv, h⟩
  | some n' => exact ⟨hinv.step hlawful hstep, h.step hlawful hinv herror hstep⟩

/-- However the bytes are cut and whatever follows the frames, `handle` is called at most once, with the request,
and the promise is set at most once, to its response. Every run can be led to rest, and a run without errors that has
come to rest has set the promise, unless `handle` did not return or its response does not fit. -/
theorem sessions_run (P : Platform) (requestType : RequestType) (key : Key) (value : ByteString)
    (hsize : 13 + value.size < 2 ^ 32) (events : List Event) :
    let request := Request.make requestType key value
    let n := Runs.run (next P request) {} events
    HandledOnce request n ∧ PromisedOnce n ∧
      ((∀ event ∈ events, event.isError = false) → AtRest P request n → (∀ call ∈ n.server.handled, Short call.2) →
        Fulfilled request n) ∧
      ∃ more : List Event, (∀ event ∈ more, event.isError = false ∧ event.isFollow = false) ∧
        AtRest P request (Runs.run (next P request) n more) := by
  intro request n
  have hlawful : request.Lawful := Request.make_lawful hsize
  have hinv : Inv request n := (inv_initial request).run hlawful events
  refine ⟨hinv.handledOnce, hinv.promisedOnce, ?_, exists_rest P request n⟩
  intro hevents hrest hshort
  exact (orderly_initial.run hlawful (inv_initial request) hevents).fulfilled hlawful hinv hrest hshort

theorem atRest_of_finished {P : Platform} {request : Request} {n : Network}
    (hclient : n.client.phase = .finished) (hserver : n.server.phase = .finished)
    (hrequest : n.toServer.arrived = n.toServer.written.length)
    (hresponse : n.toClient.arrived = n.toClient.written.length) : AtRest P request n := by
  intro event herror hfollow
  have hdeliver : ∀ {c : Channel UInt8} (numBytes : Nat), c.arrived = c.written.length →
      c.deliver numBytes = none := by
    intro c numBytes harrived
    exact dif_neg (by omega)
  cases event with
  | runThrows what => cases herror
  | clientError message => cases herror
  | serverError => cases herror
  | followRequest bytes => cases hfollow
  | followResponse bytes => cases hfollow
  | deliverRequest numBytes => simp only [Networking.step, hdeliver numBytes hrequest, Option.map_none]
  | deliverResponse numBytes => simp only [Networking.step, hdeliver numBytes hresponse, Option.map_none]
  | _ => simp [Networking.step, hclient, hserver]

/-- A key is removed; the request arrives in two chunks and is read in three, and a byte follows it. -/
def inChunks : List Event :=
  [.run, .onResolve, .onConnect, .accept, .deliverRequest 3, .receiveRequest 2, .onSend, .followRequest [7],
    .deliverRequest 15, .receiveRequest 2, .onContentLengthReceived, .receiveRequest 13,
    .onRequestReceived {} ⟨{}, {}⟩, .deliverResponse 9, .receiveResponse 4, .onContentLengthReceive,
    .receiveResponse 5, .onReceive, .onResponseSent]

theorem fulfilled_inChunks :
    Fulfilled (Request.make .Delete ⟨1⟩ ByteString.empty)
      (Runs.run (next plainPlatform (Request.make .Delete ⟨1⟩ ByteString.empty)) {} inChunks) := by
  have hevents : ∀ event ∈ inChunks, event.isError = false := by decide
  have hcalls : (Runs.run (next plainPlatform (Request.make .Delete ⟨1⟩ ByteString.empty)) {}
      inChunks).server.handled = [(Request.make .Delete ⟨1⟩ ByteString.empty,
        .ok (Response.make .Ok ByteString.empty))] := rfl
  refine (sessions_run plainPlatform .Delete ⟨1⟩ ByteString.empty (by decide) inChunks).2.2.1 hevents
    (atRest_of_finished rfl rfl rfl rfl) ?_
  intro call hmem
  rw [hcalls] at hmem
  rw [List.mem_singleton.mp hmem]
  exact ⟨_, rfl, by decide⟩

end Networking

end OmxDb
