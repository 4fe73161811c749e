import OmxDb.Connector
import OmxDb.Peers

/-!
# The service from both ends

`Service` closes the system: its peers are sessions of `ClientSession`, and their server is the one of `ServerSession`.
Seen from the server, the clients are peers that send their requests; seen from the clients, the server is one
that sends what `handle` returned. So every run of the service is a run of `Server` with the same store and
server sessions, and a run of `Connector` with the same client sessions (`service_from_both_ends`): what holds of these
whatever comes from the other end holds in the service.
-/

namespace OmxDb

namespace Networking

open LittleEndian Framing

variable {Cid : Type*} {P : Platform} {request : Request} {n n' : Network}

theorem forall_update_update [DecidableEq Cid] {α β : Type*} {R : Cid → α → β → Prop} {f : Cid → α} {g : Cid → β}
    (h : ∀ c, R c (f c) (g c)) {c : Cid} {a : α} {b : β} (hc : R c a b) (c' : Cid) :
    R c' (Function.update f c a c') (Function.update g c b c') := by
  by_cases hne : c' = c
  · subst hne
    rw [Function.update_self, Function.update_self]
    exact hc
  · rw [Function.update_of_ne hne, Function.update_of_ne hne]
    exact h c'

theorem forall_update_left [DecidableEq Cid] {α β : Type*} {R : Cid → α → β → Prop} {f : Cid → α} {g : Cid → β}
    (h : ∀ c, R c (f c) (g c)) {c : Cid} {a : α} (hc : R c a (g c)) (c' : Cid) :
    R c' (Function.update f c a c') (g c') := by
  have hboth := forall_update_update h hc c'
  rwa [Function.update_eq_self] at hboth

/-! ### From the server -/

/-- The connection on the side of the server. -/
structure ServedAs (n : Network) (p : Served) : Prop where
  session : p.session = n.server
  incoming : p.incoming = n.toServer
  outgoing : p.outgoing <+: n.toClient.written

/-- What an event of the connection is on this side. -/
def Event.served (request : Request) : Event → Option PeerEvent
  | .onConnect => some (.send request.serialize)
  | .accept => some .accept
  | .receiveRequest numBytes => some (.receive numBytes)
  | .onContentLengthReceived => some .onContentLengthReceived
  | .onResponseSent => some .onResponseSent
  | .serverError => some .error
  | .deliverRequest numBytes => some (.deliver numBytes)
  | .followRequest bytes => some (.send bytes)
  | _ => none

theorem served_event {event : Event} {event' : PeerEvent} (h : event.served request = some event') :
    (event'.ofServer = true → event.ofServer = true) ∧ ∀ opened, event' ≠ .onRequestReceived opened := by
  cases event <;> cases h <;> simp [PeerEvent.ofServer, Event.ofServer]

/-- Every step but the handling of the request is a step of the server, or nothing changes on its side. -/
theorem ServedAs.step {p : Served} (h : ServedAs n p) {event : Event} (hserve : event.handlesRequest = false)
    (hstep : Networking.step P request n event = some n') :
    event.served request = none ∧ ServedAs n' p ∨
      ∃ event' p', event.served request = some event' ∧ p.step event' = some p' ∧ ServedAs n' p' := by
  obtain ⟨session, incoming, outgoing⟩ := p
  obtain ⟨rfl, rfl, houtgoing⟩ := h
  cases Networking.step_cases hstep with
  | onConnect hphase => exact Or.inr ⟨_, _, rfl, rfl, ⟨rfl, rfl, houtgoing⟩⟩
  | accept hphase => exact Or.inr ⟨_, _, rfl, if_pos hphase, ⟨rfl, rfl, houtgoing⟩⟩
  | receiveRequest hphase hle htake =>
    exact Or.inr ⟨_, _, rfl, (if_pos ⟨hphase, hle⟩).trans (congrArg (Option.map _) htake), ⟨rfl, rfl, houtgoing⟩⟩
  | onContentLengthReceived hphase hcontent hremaining =>
    exact Or.inr ⟨_, _, rfl, if_pos ⟨hphase, hcontent, hremaining⟩, ⟨rfl, rfl, houtgoing⟩⟩
  | onRequestReceived hphase hcontent hremaining hanswer => cases hserve
  | onResponseSent hphase => exact Or.inr ⟨_, _, rfl, if_pos hphase, ⟨rfl, rfl, houtgoing⟩⟩
  | serverError haccepted hphase =>
    exact Or.inr ⟨_, _, rfl, if_neg (not_or.mpr ⟨haccepted, hphase⟩), ⟨rfl, rfl, houtgoing⟩⟩
  | deliverRequest hdeliver => exact Or.inr ⟨_, _, rfl, congrArg (Option.map _) hdeliver, ⟨rfl, rfl, houtgoing⟩⟩
  | followRequest hwritten => exact Or.inr ⟨_, _, rfl, rfl, ⟨rfl, rfl, houtgoing⟩⟩
  | receiveResponse hphase hle htake => exact Or.inl ⟨rfl, rfl, rfl, (Channel.take_eq htake).1 ▸ houtgoing⟩
  | deliverResponse hdeliver => exact Or.inl ⟨rfl, rfl, rfl, (Channel.deliver_eq hdeliver).1 ▸ houtgoing⟩
  | followResponse hwritten => exact Or.inl ⟨rfl, rfl, rfl, houtgoing.trans (List.prefix_append _ _)⟩
  | _ => exact Or.inl ⟨rfl, rfl, rfl, houtgoing⟩

theorem ServedAs.onRequestReceived {p : Served} (h : ServedAs n p) (hinv : Inv request n) {opened : SnapshotStreams}
    {store : Store} (hstep : Networking.step P request n (.onRequestReceived opened store) = some n') :
    p.session.Ready ∧ ServedAs n' (p.onRequestReceived P opened store) := by
  obtain ⟨session, incoming, outgoing⟩ := p
  obtain ⟨rfl, rfl, houtgoing⟩ := h
  cases Networking.step_cases hstep with
  | @onRequestReceived _ _ server written hphase hcontent hremaining hserve =>
    refine ⟨⟨hphase, hcontent, hremaining⟩, ?_⟩
    have hnothing := hinv.serving.toClient_eq_nil (hinv.serving.handled_eq_nil hphase)
    have hnil : outgoing = [] := List.prefix_nil.mp (hnothing ▸ houtgoing)
    subst hnil
    unfold Served.onRequestReceived
    rw [hserve]
    cases written with
    | none => exact ⟨rfl, rfl, List.nil_prefix⟩
    | some response =>
      refine ⟨rfl, rfl, ?_⟩
      show response.serialize <+: n.toClient.written ++ response.serialize
      rw [hnothing]
      exact List.prefix_rfl

section server

variable [DecidableEq Cid] {w : Workload Cid} {initial : Store} {s s' : Service Cid} {t : Server Cid} {c : Cid}

/-- The store, whether the process runs, and every connection. -/
structure ServerSide (s : Service Cid) (t : Server Cid) : Prop where
  store : t.store = s.store
  alive : t.alive = s.alive
  served : ∀ c, ServedAs (s.connections c) (t.served c)

theorem Server.step_connection {event : PeerEvent} (h : ∀ opened, event ≠ .onRequestReceived opened)
    {p : Served} (hserver : event.ofServer = true → t.alive = true) (hstep : (t.served c).step event = some p) :
    t.step P (c, event) = some { t with served := Function.update t.served c p } := by
  cases event with
  | onRequestReceived opened => exact absurd rfl (h opened)
  | send bytes => simp [Server.step, PeerEvent.ofServer, hstep]
  | deliver numBytes => simp [Server.step, PeerEvent.ofServer, hstep]
  | _ => simp [Server.step, hserver rfl, hstep]

theorem server_follows (P : Platform) (w : Workload Cid) (initial : Store) :
    Runs.Follows (Service.step P w) (Server.next P) (ServiceInv P w initial) ServerSide where
  keeps h hstep := h.step hstep
  step {s s' t event} hinv hside hstep := by
    cases Service.step_cases hstep with
    | @connection c event n hserve halive hn =>
      rcases (hside.served c).step hserve hn with ⟨-, hsame⟩ | ⟨event', p', hevent, hp', hserved⟩
      · exact ⟨[], hside.store, hside.alive, forall_update_left (R := fun _ => ServedAs) hside.served hsame⟩
      · obtain ⟨hserver, hne⟩ := served_event hevent
        refine ⟨[(c, event')], ?_⟩
        rw [Runs.run_cons, Runs.run_nil, Server.next, Server.step_connection hne ?_ hp']
        · exact ⟨hside.store, hside.alive, forall_update_update (R := fun _ => ServedAs) hside.served hserved⟩
        · intro hofServer
          rw [hside.alive]
          exact halive (hserver hofServer)
    | @onRequestReceived c n halive hn =>
      obtain ⟨hready, hserved⟩ := (hside.served c).onRequestReceived (hinv.exchange c) hn
      refine ⟨[(c, .onRequestReceived (w.opened c))], ?_⟩
      rw [Runs.run_cons, Runs.run_nil, Server.next, Server.step, if_pos ⟨hside.alive.trans halive, hready⟩]
      rw [← hside.store] at hserved
      refine ⟨?_, ?_, ?_⟩
      · show storeAfter P (w.opened c) t.store (t.served c).session.reader.buffer = _
        rw [hside.store, (hside.served c).session]
      · show decide (((t.served c).onRequestReceived P (w.opened c) t.store).session.phase = .writing) = _
        rw [hserved.session]
      · exact forall_update_update (R := fun _ => ServedAs) hside.served hserved

end server

/-! ### From the clients -/

/-- The connection on the side of the client: before its `run` there is no request. -/
inductive AskedAs (request : Request) (n : Network) : Option Requested → Prop where
  | fresh (hclient : n.client = {}) (htoClient : n.toClient = {}) : AskedAs request n none
  | asked {r : Requested} (hrequest : r.request = request) (hsession : r.session = n.client)
      (hphase : n.client.phase ≠ .created) (hincoming : r.incoming = n.toClient)
      (hunsent : n.client.phase ≠ .reading → n.client.phase ≠ .finished → r.outgoing = [])
      (houtgoing : r.outgoing <+: n.toServer.written) : AskedAs request n (some r)

/-- The call of `execute`. -/
def Event.executes : Event → Option (Option String)
  | .run => some none
  | .runThrows what => some (some what)
  | _ => none

namespace AskedAs

variable {o : Option Requested}

theorem other (h : AskedAs request n o) (hclient : n'.client = n.client) (htoClient : n'.toClient = n.toClient)
    (hwritten : n.toServer.written <+: n'.toServer.written) : AskedAs request n' o := by
  cases h with
  | fresh hinitial hnothing => exact .fresh (hclient.trans hinitial) (htoClient.trans hnothing)
  | asked hrequest hsession hphase hincoming hunsent houtgoing =>
    refine .asked hrequest (hsession.trans hclient.symm) ?_ (hincoming.trans htoClient.symm) ?_
      (houtgoing.trans hwritten)
    · rw [hclient]
      exact hphase
    · rw [hclient]
      exact hunsent

theorem exists_requested (h : AskedAs request n o) (hphase : n.client.phase ≠ .created) :
    ∃ outgoing broken, o = some ⟨request, n.client, outgoing, n.toClient, broken⟩ ∧
      (n.client.phase ≠ .reading → n.client.phase ≠ .finished → outgoing = []) ∧
      outgoing <+: n.toServer.written := by
  cases h with
  | fresh hclient htoClient => exact absurd (congrArg ClientSession.phase hclient) hphase
  | @asked r hrequest hsession _ hincoming hunsent houtgoing =>
    obtain ⟨request', session, outgoing, incoming, broken⟩ := r
    cases hrequest
    cases hsession
    cases hincoming
    exact ⟨outgoing, broken, rfl, hunsent, houtgoing⟩

theorem phase_ne_created (h : AskedAs request n o) (hwritten : n.toClient.written ≠ []) :
    n.client.phase ≠ .created := by
  cases h with
  | fresh hclient htoClient =>
    rw [htoClient] at hwritten
    exact absurd rfl hwritten
  | asked hrequest hsession hphase => exact hphase

/-- Every step but the first of the client and the handling of its request is a step of the request, or nothing changes
on its side. -/
theorem step (h : AskedAs request n o) (hinv : Inv request n) {event : Event} (hserve : event.handlesRequest = false)
    (hexecutes : event.executes = none) (hstep : Networking.step P request n event = some n') :
    AskedAs request n' o ∨ ∃ event' r r', o = some r ∧ r.step event' = some r' ∧ AskedAs request n' (some r') := by
  cases Networking.step_cases hstep with
  | run hphase => cases hexecutes
  | runThrows hphase => cases hexecutes
  | onRequestReceived hphase hcontent hremaining hanswer => cases hserve
  | onResolve hphase =>
    obtain ⟨outgoing, broken, rfl, hunsent, houtgoing⟩ := h.exists_requested (by rw [hphase]; decide)
    have hnil := hunsent (by rw [hphase]; decide) (by rw [hphase]; decide)
    exact Or.inr ⟨.onResolve, _, _, rfl, if_pos hphase,
      .asked rfl rfl (show ClientPhase.connecting ≠ .created by decide) rfl (fun _ _ => hnil) houtgoing⟩
  | onConnect hphase =>
    obtain ⟨outgoing, broken, rfl, hunsent, houtgoing⟩ := h.exists_requested (by rw [hphase]; decide)
    have hnil := hunsent (by rw [hphase]; decide) (by rw [hphase]; decide)
    exact Or.inr ⟨.onConnect, _, _, rfl, if_pos hphase,
      .asked rfl rfl (show ClientPhase.sending ≠ .created by decide) rfl (fun _ _ => hnil)
        (houtgoing.trans (List.prefix_append _ _))⟩
  | onSend hphase =>
    obtain ⟨outgoing, broken, rfl, hunsent, houtgoing⟩ := h.exists_requested (by rw [hphase]; decide)
    have hnil := hunsent (by rw [hphase]; decide) (by rw [hphase]; decide)
    subst hnil
    obtain ⟨tail, htail⟩ := hinv.sent.written.resolve_left (hinv.sent.frame (Or.inl hphase))
    refine Or.inr ⟨.onSend request.serialize.length, _, _, rfl, if_pos ⟨hphase, le_refl _⟩,
      .asked rfl rfl (show ClientPhase.reading ≠ .created by decide) rfl (fun hne => absurd rfl hne) ?_⟩
    show [] ++ request.serialize.take request.serialize.length <+: n.toServer.written
    rw [List.nil_append, List.take_length, htail]
    exact List.prefix_append _ _
  | @receiveResponse numBytes bytes toClient hphase hle htake =>
    have hne : n.client.phase ≠ .created := by rw [hphase]; decide
    obtain ⟨outgoing, broken, rfl, hunsent, houtgoing⟩ := h.exists_requested hne
    exact Or.inr ⟨.receive numBytes, _, _, rfl,
      (if_pos ⟨hphase, hle⟩).trans (congrArg (Option.map _) htake), .asked rfl rfl hne rfl hunsent houtgoing⟩
  | onContentLengthReceive hphase hcontent hremaining =>
    have hne : n.client.phase ≠ .created := by rw [hphase]; decide
    obtain ⟨outgoing, broken, rfl, hunsent, houtgoing⟩ := h.exists_requested hne
    exact Or.inr ⟨.onContentLengthReceive, _, _, rfl, if_pos ⟨hphase, hcontent, hremaining⟩,
      .asked rfl rfl hne rfl hunsent houtgoing⟩
  | onReceive hphase hcontent hremaining =>
    obtain ⟨outgoing, broken, rfl, hunsent, houtgoing⟩ := h.exists_requested (by rw [hphase]; decide)
    have hfinished := n.client.phase_onReceive
    refine Or.inr ⟨.onReceive, _, _, rfl, if_pos ⟨hphase, hcontent, hremaining⟩,
      .asked rfl rfl ?_ rfl (fun _ hne => absurd hfinished hne) houtgoing⟩
    show n.client.onReceive.phase ≠ .created
    rw [hfinished]
    decide
  | @clientError message hrun hphase =>
    obtain ⟨outgoing, broken, rfl, hunsent, houtgoing⟩ := h.exists_requested hrun
    exact Or.inr ⟨.error message, _, _, rfl, if_pos ⟨hrun, hphase⟩,
      .asked rfl rfl (show ClientPhase.finished ≠ .created by decide) rfl (fun _ hne => absurd rfl hne) houtgoing⟩
  | @deliverResponse numBytes toClient hdeliver =>
    have hne : n.client.phase ≠ .created := by
      apply h.phase_ne_created
      intro hnil
      have hpossible : 0 < numBytes ∧ n.toClient.arrived + numBytes ≤ n.toClient.written.length := by
        unfold Channel.deliver at hdeliver
        split_ifs at hdeliver with hpossible
        exact hpossible
      rw [hnil, List.length_nil] at hpossible
      omega
    obtain ⟨outgoing, broken, rfl, hunsent, houtgoing⟩ := h.exists_requested hne
    exact Or.inr ⟨.deliver numBytes, _, _, rfl, congrArg (Option.map _) hdeliver,
      .asked rfl rfl hne rfl hunsent houtgoing⟩
  | @followResponse bytes hwritten =>
    have hne := h.phase_ne_created hwritten
    obtain ⟨outgoing, broken, rfl, hunsent, houtgoing⟩ := h.exists_requested hne
    exact Or.inr ⟨.send bytes, _, _, rfl, rfl, .asked rfl rfl hne rfl hunsent houtgoing⟩
  | @receiveRequest numBytes bytes toServer hphase hle htake =>
    refine Or.inl (h.other rfl rfl ?_)
    show n.toServer.written <+: toServer.written
    rw [(Channel.take_eq htake).1]
  | @deliverRequest numBytes toServer hdeliver =>
    refine Or.inl (h.other rfl rfl ?_)
    show n.toServer.written <+: toServer.written
    rw [(Channel.deliver_eq hdeliver).1]
  | followRequest hwritten => exact Or.inl (h.other rfl rfl (List.prefix_append _ _))
  | _ => exact Or.inl (h.other rfl rfl List.prefix_rfl)

end AskedAs

section client

variable [DecidableEq Cid] {w : Workload Cid} {initial : Store} {s : Service Cid} {t : Connector Cid} {c : Cid}

/-- The connector runs, and every request is one of the clients that have been run. -/
structure ClientSide (w : Workload Cid) (s : Service Cid) (t : Connector Cid) : Prop where
  running : t.running = true
  terminated : t.terminated = false
  asked : ∀ c, AskedAs (w.request c) (s.connections c) (t.requested c)

omit [DecidableEq Cid] in
theorem clientSide_initial (w : Workload Cid) (initial : Store) :
    ClientSide w ({ store := initial } : Service Cid) {} where
  running := rfl
  terminated := rfl
  asked _ := .fresh rfl rfl

theorem ClientSide.requested {s' : Service Cid} (h : ClientSide w s t) {event : RequestedEvent} {r r' : Requested}
    (hr : t.requested c = some r) (hstep : r.step event = some r')
    (hasked : ∀ c', AskedAs (w.request c') (s'.connections c') (Function.update t.requested c (some r') c')) :
    ClientSide w s' (Runs.run Connector.next t [.requested c event]) := by
  rw [Runs.run_cons, Runs.run_nil, Connector.next]
  have hnext : t.step (.requested c event) = some { t with
      terminated := false
      requested := Function.update t.requested c (some r') } := by
    simp [Connector.step, Connector.act, h.terminated, h.running, hr, hstep, Requested.throws_eq_false]
  rw [hnext]
  exact ⟨h.running, rfl, hasked⟩

theorem ClientSide.execute {s' : Service Cid} (h : ClientSide w s t) {request : Request} {throws : Option String}
    (hr : t.requested c = none)
    (hasked : ∀ c', AskedAs (w.request c') (s'.connections c')
      (Function.update t.requested c (some (Connector.execute request throws)) c')) :
    ClientSide w s' (Runs.run Connector.next t [.execute c request throws]) := by
  rw [Runs.run_cons, Runs.run_nil, Connector.next]
  have hnext : t.step (.execute c request throws) = some { t with
      requested := Function.update t.requested c (some (Connector.execute request throws)) } := by
    simp [Connector.step, Connector.act, h.terminated, h.running, hr]
  rw [hnext]
  exact ⟨h.running, h.terminated, hasked⟩

omit [DecidableEq Cid] in
theorem AskedAs.execute {o : Option Requested} (h : AskedAs request n o) {event : Event} {throws : Option String}
    (hexecutes : event.executes = some throws) (hstep : Networking.step P request n event = some n') :
    o = none ∧ AskedAs request n' (some (Connector.execute request throws)) := by
  cases Networking.step_cases hstep with
  | run hphase =>
    cases hexecutes
    cases h with
    | asked hrequest hsession hne => exact absurd hphase hne
    | fresh hclient htoClient =>
      refine ⟨rfl, .asked rfl ?_ (show ClientPhase.resolving ≠ .created by decide) htoClient.symm (fun _ _ => rfl)
        List.nil_prefix⟩
      rw [hclient]
      rfl
  | runThrows hphase =>
    cases hexecutes
    cases h with
    | asked hrequest hsession hne => exact absurd hphase hne
    | fresh hclient htoClient =>
      refine ⟨rfl, .asked rfl ?_ (show ClientPhase.finished ≠ .created by decide) htoClient.symm (fun _ _ => rfl)
        List.nil_prefix⟩
      rw [hclient]
      rfl
  | _ => cases hexecutes

theorem client_follows (P : Platform) (w : Workload Cid) (initial : Store) :
    Runs.Follows (Service.step P w) Connector.next (ServiceInv P w initial) (ClientSide w) where
  keeps h hstep := h.step hstep
  step {s s' t event} hinv hside hstep := by
    cases Service.step_cases hstep with
    | @connection c event n hserve halive hn =>
      cases hexecutes : event.executes with
      | some throws =>
        obtain ⟨hnone, hasked⟩ := (hside.asked c).execute hexecutes hn
        exact ⟨[.execute c (w.request c) throws], hside.execute hnone
          (forall_update_update (R := fun c => AskedAs (w.request c)) hside.asked hasked)⟩
      | none =>
        rcases (hside.asked c).step (hinv.exchange c) hserve hexecutes hn with hsame | ⟨event', r, r', hr, hr', hasked⟩
        · exact ⟨[], hside.running, hside.terminated,
            forall_update_left (R := fun c => AskedAs (w.request c)) hside.asked hsame⟩
        · exact ⟨[.requested c event'], hside.requested hr hr'
            (forall_update_update (R := fun c => AskedAs (w.request c)) hside.asked hasked)⟩
    | @onRequestReceived c n halive hn =>
      cases Networking.step_cases hn with
      | @onRequestReceived _ _ server written hreading hcontent hremaining hserve =>
        -- the client has been run: the server has read its request
        obtain ⟨-, -, hphase⟩ := (hinv.exchange c).buffer_eq (w.lawful c) ⟨hreading, hcontent, hremaining⟩
        cases written with
        | none =>
          exact ⟨[], hside.running, hside.terminated, forall_update_left (R := fun c => AskedAs (w.request c))
            hside.asked ((hside.asked c).other rfl rfl List.prefix_rfl)⟩
        | some response =>
          obtain ⟨outgoing, broken, hr, hunsent, houtgoing⟩ := (hside.asked c).exists_requested hphase
          exact ⟨[.requested c (.send response.serialize)], hside.requested hr rfl
            (forall_update_update (R := fun c => AskedAs (w.request c)) hside.asked
              (.asked rfl rfl hphase rfl hunsent houtgoing))⟩

end client

/-- Every run of the service is a run of the server, with the same store and the same server sessions, and a run of the
connector, with the same client sessions; each end sends the other what the sessions of the other end send. -/
theorem service_from_both_ends [DecidableEq Cid] (P : Platform) (w : Workload Cid) (store : Store)
    (events : List (ServiceEvent Cid)) :
    let s := Runs.run (Service.next P w) { store := store } events
    (∃ served, ServerSide s (Runs.run (Server.next P) { store := store } served)) ∧
      ∃ asked, ClientSide w s (Runs.run Connector.next ({} : Connector Cid) asked) := by
  intro s
  refine ⟨(server_follows P w store).exists_run (serviceInv_initial P w store) ?_ events,
    (client_follows P w store).exists_run (serviceInv_initial P w store) (clientSide_initial w store) events⟩
  exact ⟨rfl, rfl, fun _ => ⟨rfl, rfl, List.nil_prefix⟩⟩

end Networking

end OmxDb
