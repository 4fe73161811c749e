import OmxDb.Lifecycle
import OmxDb.OneObject
import OmxDb.Peers

/-!
# From the first start to the first stop

`start` accepts, opens the database and starts the threads that run the service; `stop` stops the service and joins
them; `wait` runs the service too. Handlers are whole steps here, one at a time, and none is under way at a stop: `stop`
does not join a thread that is in `wait`, and a handler that thread is in goes on behind it. A start while a thread is
in `wait` accepts before it opens the database, so it is a condition that there is none (`StartsAlone`).

Then no handler runs before the database is open, and up to the first stop the server is the one that `Peers` is about.
But a service that was stopped stays stopped, and `Acceptor::stop` stores false into a flag that is false. So a server
that was stopped and is started again opens the database, starts threads that return at once, and never accepts, reads
or answers anything again, while its accept operations stay (`served_until_stopped`).
-/

namespace OmxDb

namespace Networking

variable {Cid : Type*}

/-! ### The objects -/

/-- `server` has the database and the sessions, `accepts` counts the operations of the acceptor that wait for a
connection, and `waits` says that a thread called `wait`. -/
structure DatabaseServerImpl (Cid : Type*) where
  base : ServerBase
  server : Server Cid
  opened : Bool := false
  accepts : Nat := 0
  isStopped : Bool := false
  acceptorOpen : Bool := true
  serviceStopped : Bool := false
  waits : Bool := false

/-- An accept is told of an error or has its connection. -/
inductive LifeEvent (Cid : Type*) where
  | start
  | stop
  | wait
  | onAccept (c : Option Cid)
  | connection (c : Cid) (event : PeerEvent)

inductive LifeFault where
  | thread (fault : ThreadFault)
  | «open» (fault : Fault)

namespace DatabaseServerImpl

variable [DecidableEq Cid]

def initAccept (s : DatabaseServerImpl Cid) : DatabaseServerImpl Cid := { s with accepts := s.accepts + 1 }

/-- `Acceptor::start`. -/
def startAcceptor (s : DatabaseServerImpl Cid) : DatabaseServerImpl Cid := s.initAccept

/-- `Acceptor::stop`. -/
def stopAcceptor (s : DatabaseServerImpl Cid) : DatabaseServerImpl Cid := { s with isStopped := false }

def onAccept (P : Platform) (s : DatabaseServerImpl Cid) (c : Option Cid) : Option (DatabaseServerImpl Cid) :=
  if s.accepts = 0 then none
  else (c.elim (some s.server) fun c => s.server.step P (c, .accept)).map fun server =>
    let s := { s with server := server, accepts := s.accepts - 1 }
    if s.isStopped then { s with acceptorOpen := false } else s.initAccept

/-- What an open leaves that throws is not followed further. -/
def init (P : Platform) (options : Options) (s : DatabaseServerImpl Cid) : Except LifeFault (DatabaseServerImpl Cid) :=
  let s := s.startAcceptor
  match reopen P options s.server.store with
  | (_, .error fault) => .error (.open fault)
  | (disk, .ok engine) => .ok { s with server := { s.server with store := ⟨disk, engine⟩ }, opened := true }

def start (P : Platform) (options : Options) (s : DatabaseServerImpl Cid) :
    Except LifeFault (DatabaseServerImpl Cid) :=
  match s.init P options with
  | .error fault => .error fault
  | .ok s =>
    match s.base.start none with
    | .error fault => .error (.thread fault)
    | .ok base => .ok { s with base := base }

def stop (s : DatabaseServerImpl Cid) : Except LifeFault (DatabaseServerImpl Cid) :=
  let s := { s.stopAcceptor with serviceStopped := true }
  match s.base.stop with
  | .error fault => .error (.thread fault)
  | .ok base => .ok { s with base := base }

/-- Some thread is in `m_service.run()`, which returns at once on a service that was stopped. -/
def runs (s : DatabaseServerImpl Cid) : Bool := !s.serviceStopped && (s.waits || s.base.threads.any Option.isSome)

/-- A thread is in `wait`. -/
def isWaiting (s : DatabaseServerImpl Cid) : Bool := s.waits && !s.serviceStopped

/-- What is not possible changes nothing, and nothing is possible once a handler has ended the program. -/
def act (P : Platform) (options : Options) (s : DatabaseServerImpl Cid) (event : LifeEvent Cid) :
    Except LifeFault (DatabaseServerImpl Cid) :=
  if s.server.alive then
    match event with
    | .start => s.start P options
    | .stop => s.stop
    | .wait => .ok { s with waits := true }
    | .onAccept c => .ok (if s.runs then (s.onAccept P c).getD s else s)
    | .connection _ .accept => .ok s
    | .connection c event =>
      .ok (if event.ofServer && !s.runs then s else { s with server := Server.next P s.server (c, event) })
  else .ok s

/-- A start is not called while a thread is in `wait`. -/
def StartsAlone (s : DatabaseServerImpl Cid) (event : LifeEvent Cid) : Prop := event = .start → s.isWaiting = false

/-- A server as it is constructed. -/
def constructed (numThreads : UInt32) (server : Server Cid) : DatabaseServerImpl Cid where
  base := { numThreads := numThreads }
  server := server

end DatabaseServerImpl

/-! ### The network alone -/

section network

variable [DecidableEq Cid] {P : Platform} {s : Server Cid} {c : Cid} {event : PeerEvent}

/-- The network moves bytes past store, calls and sessions. -/
structure MovesBytes (s s' : Server Cid) : Prop where
  store : s'.store = s.store
  alive : s'.alive = s.alive
  calls : s'.calls = s.calls
  session : ∀ c, (s'.served c).session = (s.served c).session
  outgoing : ∀ c, (s'.served c).outgoing = (s.served c).outgoing

theorem Server.next_network (hevent : event.ofServer = false) : MovesBytes s (s.next P (c, event)) := by
  unfold Server.next
  cases hstep : s.step P (c, event) with
  | none => exact ⟨rfl, rfl, rfl, fun c => rfl, fun c => rfl⟩
  | some s' =>
    have hconnection : ∃ p, (s.served c).step event = some p ∧
        s' = { s with served := Function.update s.served c p } := by
      cases event with
      | send bytes => exact ⟨_, rfl, (Option.some.inj hstep).symm⟩
      | deliver numBytes =>
        obtain ⟨p, hp, rfl⟩ := Option.map_eq_some_iff.mp hstep
        exact ⟨p, hp, rfl⟩
      | _ => cases hevent
    obtain ⟨p, hp, rfl⟩ := hconnection
    have hkeeps : p.session = (s.served c).session ∧ p.outgoing = (s.served c).outgoing := by
      cases event with
      | send bytes =>
        cases hp
        exact ⟨rfl, rfl⟩
      | deliver numBytes =>
        obtain ⟨incoming, -, rfl⟩ := Option.map_eq_some_iff.mp hp
        exact ⟨rfl, rfl⟩
      | _ => cases hevent
    refine ⟨rfl, rfl, rfl, ?_, ?_⟩
    · exact (Function.forall_update_iff s.served (p := fun c p => p.session = (s.served c).session)).mpr
        ⟨hkeeps.1, fun c' _ => rfl⟩
    · exact (Function.forall_update_iff s.served (p := fun c p => p.outgoing = (s.served c).outgoing)).mpr
        ⟨hkeeps.2, fun c' _ => rfl⟩

theorem Server.next_withStore (hevent : event.ofServer = false) (store : Store) :
    Server.next P { s with store := store } (c, event) = { s.next P (c, event) with store := store } := by
  unfold Server.next
  cases event with
  | send bytes => rfl
  | deliver numBytes =>
    simp only [Server.step, PeerEvent.ofServer, Bool.false_and, Bool.false_eq_true, if_false]
    cases (s.served c).step (.deliver numBytes) <;> rfl
  | _ => cases hevent

theorem Server.run_withStore {handlers : List (Cid × PeerEvent)}
    (hnetwork : ∀ handler ∈ handlers, handler.2.ofServer = false) (store : Store) :
    Runs.run (Server.next P) { s with store := store } handlers
      = { Runs.run (Server.next P) s handlers with store := store } := by
  induction handlers generalizing s with
  | nil => rfl
  | cons handler handlers ih =>
    obtain ⟨hevent, hrest⟩ := List.forall_mem_cons.mp hnetwork
    rw [Runs.run_cons, Runs.run_cons, Server.next_withStore hevent, ih hrest]

theorem Server.run_network {handlers : List (Cid × PeerEvent)}
    (hnetwork : ∀ handler ∈ handlers, handler.2.ofServer = false) :
    MovesBytes s (Runs.run (Server.next P) s handlers) := by
  induction handlers generalizing s with
  | nil => exact ⟨rfl, rfl, rfl, fun c => rfl, fun c => rfl⟩
  | cons handler handlers ih =>
    obtain ⟨hevent, hrest⟩ := List.forall_mem_cons.mp hnetwork
    have hfirst : MovesBytes s (s.next P handler) := Server.next_network hevent
    have hlater : MovesBytes (s.next P handler) (Runs.run (Server.next P) (s.next P handler) handlers) := ih hrest
    exact ⟨hlater.store.trans hfirst.store, hlater.alive.trans hfirst.alive, hlater.calls.trans hfirst.calls,
      fun c => (hlater.session c).trans (hfirst.session c), fun c => (hlater.outgoing c).trans (hfirst.outgoing c)⟩

/-- A session that was not accepted has no handlers but the accept. -/
theorem Server.next_created (hsession : (s.served c).session.phase = .created) (hevent : event.ofServer = true)
    (haccept : event ≠ .accept) : s.next P (c, event) = s := by
  have hnone : s.step P (c, event) = none := by
    cases event with
    | send bytes => cases hevent
    | deliver numBytes => cases hevent
    | accept => exact absurd rfl haccept
    | onRequestReceived opened => simp [Server.step, ServerSession.Ready, hsession]
    | _ => simp [Server.step, Served.step, hsession]
  unfold Server.next
  rw [hnone]
  rfl

end network

/-! ### Calls of the owner -/

theorem destroyThreads_ok {threads : List (Option Nat)} (h : ServerBase.destroyThreads threads = .ok ()) :
    ∀ thread ∈ threads, thread = none := by
  induction threads with
  | nil => exact fun thread hthread => absurd hthread List.not_mem_nil
  | cons thread threads ih =>
    cases thread with
    | none => exact List.forall_mem_cons.mpr ⟨rfl, ih h⟩
    | some id => cases h

theorem startThreads_ok {threads : List (Option Nat)} {started : Nat} {result : List (Option Nat) × Nat}
    (h : ServerBase.startThreads started threads = .ok result) : ∀ thread ∈ threads, thread = none := by
  induction threads generalizing started result with
  | nil => exact fun thread hthread => absurd hthread List.not_mem_nil
  | cons thread threads ih =>
    cases thread with
    | some id => cases h
    | none =>
      refine List.forall_mem_cons.mpr ⟨rfl, ?_⟩
      cases hrest : ServerBase.startThreads (started + 1) threads with
      | error fault =>
        rw [ServerBase.startThreads, hrest] at h
        cases h
      | ok rest => exact ih hrest

theorem start_ok {base base' : ServerBase} (h : base.start none = .ok base') :
    ∀ thread ∈ base.threads, thread = none := by
  unfold ServerBase.start at h
  simp only [ServerBase.init, Option.elim_none, ServerBase.resizeThreads] at h
  cases hdestroy : ServerBase.destroyThreads (base.threads.drop base.numThreads.toNat) with
  | error fault =>
    rw [hdestroy] at h
    cases h
  | ok destroyed =>
    rw [hdestroy] at h
    simp only [bind, Except.bind, pure, Except.pure] at h
    split at h
    · cases h
    · rename_i result hstart
      have hkept := startThreads_ok hstart
      intro thread hthread
      rw [← List.take_append_drop base.numThreads.toNat base.threads, List.mem_append] at hthread
      rcases hthread with hfront | hback
      · exact hkept thread (List.mem_append_left _ hfront)
      · exact destroyThreads_ok hdestroy thread hback

namespace DatabaseServerImpl

variable [DecidableEq Cid] {P : Platform} {options : Options} {s s' : DatabaseServerImpl Cid}

omit [DecidableEq Cid] in
theorem start_eq (h : s.start P options = .ok s') :
    ∃ disk engine base, reopen P options s.server.store = (disk, .ok engine) ∧ s.base.start none = .ok base ∧
      s' = { s with
        base := base
        server := { s.server with store := ⟨disk, engine⟩ }
        opened := true
        accepts := s.accepts + 1 } := by
  unfold start init at h
  dsimp only [startAcceptor, initAccept] at h
  cases hopen : reopen P options s.server.store with
  | mk disk result =>
    rw [hopen] at h
    cases result with
    | error fault => cases h
    | ok engine =>
      dsimp only at h
      cases hstart : s.base.start none with
      | error fault =>
        rw [hstart] at h
        cases h
      | ok base =>
        rw [hstart] at h
        cases h
        exact ⟨disk, engine, base, rfl, rfl, rfl⟩

omit [DecidableEq Cid] in
theorem stop_eq (h : s.stop = .ok s') :
    ∃ base, s' = { s with base := base, isStopped := false, serviceStopped := true } := by
  unfold stop at h
  dsimp only [stopAcceptor] at h
  cases hstop : s.base.stop with
  | error fault =>
    rw [hstop] at h
    cases h
  | ok base =>
    rw [hstop] at h
    cases h
    exact ⟨base, rfl⟩

theorem onAccept_eq {c : Option Cid} (hflag : s.isStopped = false) (h : s.onAccept P c = some s') :
    0 < s.accepts ∧ ∃ server, c.elim (some s.server) (fun c => s.server.step P (c, .accept)) = some server ∧
      s' = { s with server := server } := by
  unfold onAccept at h
  split_ifs at h with hnone
  obtain ⟨server, hserver, rfl⟩ := Option.map_eq_some_iff.mp h
  have hpos : 0 < s.accepts := Nat.pos_of_ne_zero hnone
  refine ⟨hpos, server, hserver, ?_⟩
  dsimp only [initAccept]
  rw [hflag, if_neg Bool.false_ne_true, Nat.sub_add_cancel hpos]

/-- What an event can do. -/
inductive Acts (P : Platform) (options : Options) (s : DatabaseServerImpl Cid) :
    LifeEvent Cid → DatabaseServerImpl Cid → Prop where
  | nothing {event : LifeEvent Cid} : Acts P options s event s
  | start {t : DatabaseServerImpl Cid} (h : s.start P options = .ok t) : Acts P options s .start t
  | stop {t : DatabaseServerImpl Cid} (h : s.stop = .ok t) : Acts P options s .stop t
  | wait : Acts P options s .wait { s with waits := true }
  | onAccept {t : DatabaseServerImpl Cid} {c : Option Cid} (hruns : s.runs = true) (h : s.onAccept P c = some t) :
      Acts P options s (.onAccept c) t
  | network {c : Cid} {event : PeerEvent} (h : event.ofServer = false) :
      Acts P options s (.connection c event) { s with server := Server.next P s.server (c, event) }
  | handler {c : Cid} {event : PeerEvent} (hruns : s.runs = true) (h : event.ofServer = true)
      (haccept : event ≠ .accept) :
      Acts P options s (.connection c event) { s with server := Server.next P s.server (c, event) }

theorem act_cases {event : LifeEvent Cid} (h : s.act P options event = .ok s') : Acts P options s event s' := by
  have hsame : Except.ok s = (Except.ok s' : Except LifeFault (DatabaseServerImpl Cid)) →
      Acts P options s event s' := by
    rintro ⟨⟩
    exact .nothing
  unfold act at h
  cases halive : s.server.alive with
  | false =>
    rw [halive, if_neg Bool.false_ne_true] at h
    exact hsame h
  | true =>
    rw [halive, if_pos rfl] at h
    cases event with
    | start => exact .start h
    | stop => exact .stop h
    | wait =>
      cases h
      exact .wait
    | onAccept c =>
      dsimp only at h
      cases hruns : s.runs with
      | false =>
        rw [hruns, if_neg Bool.false_ne_true] at h
        exact hsame h
      | true =>
        rw [hruns, if_pos rfl] at h
        cases haccept : s.onAccept P c with
        | none =>
          rw [haccept] at h
          exact hsame h
        | some s'' =>
          rw [haccept] at h
          cases h
          exact .onAccept hruns haccept
    | connection c event =>
      by_cases haccept : event = .accept
      · subst haccept
        exact hsame h
      · have hresult : s' = if event.ofServer && !s.runs then s
            else { s with server := Server.next P s.server (c, event) } := by
          cases event with
          | accept => exact absurd rfl haccept
          | _ => exact (Except.ok.inj h).symm
        subst hresult
        cases hserver : event.ofServer with
        | false => exact .network hserver
        | true =>
          cases hruns : s.runs with
          | false => exact .nothing
          | true => exact .handler hruns hserver haccept

/-! ### Lives -/

/-- The sessions and their calls are those of a run of the server on the store of an open, up to the first stop with its
store. Before the service ran, only bytes moved. -/
structure LifeInv (P : Platform) (options : Options) (s : DatabaseServerImpl Cid) (first : Store)
    (handlers : List (Cid × PeerEvent)) : Prop where
  isStopped : s.isStopped = false
  acceptorOpen : s.acceptorOpen = true
  accepts : s.opened = true ↔ 0 < s.accepts
  opened : s.opened = true → ∃ store, reopen P options store = (first.disk, .ok first.engine)
  server : s.server = { Runs.run (Server.next P) { store := first } handlers with store := s.server.store }
  store : s.serviceStopped = false → s.server.store = (Runs.run (Server.next P) { store := first } handlers).store
  quiet : s.opened = false ∨ s.serviceStopped = false ∧ s.runs = false →
    ∀ handler ∈ handlers, handler.2.ofServer = false

namespace LifeInv

variable {first : Store} {handlers : List (Cid × PeerEvent)}

theorem eq_run (h : LifeInv P options s first handlers) (hservice : s.serviceStopped = false) :
    s.server = Runs.run (Server.next P) { store := first } handlers := by
  have hserver := h.server
  rw [h.store hservice] at hserver
  exact hserver

theorem start (h : LifeInv P options s first handlers) (howner : s.isWaiting = false)
    (hstart : s.start P options = .ok s') : ∃ first', LifeInv P options s' first' handlers := by
  obtain ⟨disk, engine, base, hopen, hbase, rfl⟩ := start_eq hstart
  have haccepts : true = true ↔ 0 < s.accepts + 1 := iff_of_true rfl (Nat.succ_pos s.accepts)
  by_cases hquiet : s.opened = false ∨ s.serviceStopped = false ∧ s.runs = false
  · -- the new store is the first one that anything is done on
    have hnetwork := h.quiet hquiet
    have hfirst : Runs.run (Server.next P) ({ store := ⟨disk, engine⟩ } : Server Cid) handlers
        = { Runs.run (Server.next P) ({ store := first } : Server Cid) handlers with store := ⟨disk, engine⟩ } :=
      Server.run_withStore (s := { store := first }) hnetwork ⟨disk, engine⟩
    refine ⟨⟨disk, engine⟩, h.isStopped, h.acceptorOpen, haccepts, fun _ => ⟨_, hopen⟩, ?_, ?_, fun _ => hnetwork⟩
    · dsimp only
      rw [hfirst, h.server]
    · intro _
      rw [hfirst]
  · -- the service was stopped, since no object had a thread
    obtain ⟨hopened, hran⟩ := not_or.mp hquiet
    have hstopped : s.serviceStopped = true := by
      cases hservice : s.serviceStopped with
      | true => rfl
      | false =>
        have hnone := start_ok hbase
        simp only [isWaiting, hservice, Bool.not_false, Bool.and_true] at howner
        refine absurd ⟨hservice, ?_⟩ hran
        simp only [runs, howner, Bool.false_or, Bool.and_eq_false_iff, List.any_eq_false]
        refine Or.inr fun thread hthread => ?_
        rw [hnone thread hthread]
        simp
    refine ⟨first, h.isStopped, h.acceptorOpen, haccepts, fun _ => h.opened (eq_true_of_ne_false hopened), ?_, ?_, ?_⟩
    · dsimp only
      rw [h.server]
    · intro hservice
      rw [hstopped] at hservice
      cases hservice
    · rintro (hclosed | ⟨hservice, -⟩)
      · cases hclosed
      · rw [hstopped] at hservice
        cases hservice

theorem stop (h : LifeInv P options s first handlers) (hstop : s.stop = .ok s') :
    LifeInv P options s' first handlers := by
  obtain ⟨base, rfl⟩ := stop_eq hstop
  refine ⟨rfl, h.acceptorOpen, h.accepts, h.opened, h.server, ?_, ?_⟩
  · intro hservice
    cases hservice
  · rintro (hclosed | ⟨hservice, -⟩)
    · exact h.quiet (Or.inl hclosed)
    · cases hservice

theorem wait (h : LifeInv P options s first handlers) :
    LifeInv P options { s with waits := true } first handlers := by
  refine ⟨h.isStopped, h.acceptorOpen, h.accepts, h.opened, h.server, h.store, ?_⟩
  rintro (hclosed | ⟨hservice, hruns⟩)
  · exact h.quiet (Or.inl hclosed)
  · have hservice' : s.serviceStopped = false := hservice
    simp [runs, hservice'] at hruns

theorem handler (h : LifeInv P options s first handlers) (hruns : s.runs = true) (hopened : s.opened = true)
    (handler : Cid × PeerEvent) :
    LifeInv P options { s with server := Server.next P s.server handler } first (handlers ++ [handler]) := by
  have hservice : s.serviceStopped = false := by
    simp only [runs, Bool.and_eq_true, Bool.not_eq_true'] at hruns
    exact hruns.1
  have hnext : Server.next P s.server handler
      = Runs.run (Server.next P) { store := first } (handlers ++ [handler]) := by
    rw [Runs.run_append, ← h.eq_run hservice]
    rfl
  refine ⟨h.isStopped, h.acceptorOpen, h.accepts, h.opened, ?_, fun _ => congrArg Server.store hnext, ?_⟩
  · dsimp only
    rw [← hnext]
  · rintro (hclosed | ⟨-, hidle⟩)
    · exact absurd (hopened.symm.trans hclosed) (by decide)
    · exact absurd (hruns.symm.trans hidle) (by decide)

theorem network (h : LifeInv P options s first handlers) {c : Cid} {event : PeerEvent}
    (hevent : event.ofServer = false) :
    LifeInv P options { s with server := Server.next P s.server (c, event) } first (handlers ++ [(c, event)]) := by
  have hrun : Runs.run (Server.next P) ({ store := first } : Server Cid) (handlers ++ [(c, event)])
      = Server.next P (Runs.run (Server.next P) { store := first } handlers) (c, event) := Runs.run_append ..
  have hmoves : MovesBytes s.server (Server.next P s.server (c, event)) := Server.next_network hevent
  refine ⟨h.isStopped, h.acceptorOpen, h.accepts, h.opened, ?_, ?_, ?_⟩
  · dsimp only
    rw [hrun, hmoves.store]
    conv_lhs => rw [h.server]
    rw [Server.next_withStore hevent]
  · intro hservice
    dsimp only
    rw [hrun, ← h.eq_run hservice]
  · intro hquiet
    rw [List.forall_mem_append, List.forall_mem_singleton]
    exact ⟨h.quiet hquiet, hevent⟩

theorem created (h : LifeInv P options s first handlers) (hclosed : s.opened = false) (c : Cid) :
    (s.server.served c).session.phase = .created := by
  have hmoves : MovesBytes ({ store := first } : Server Cid) (Runs.run (Server.next P) { store := first } handlers) :=
    Server.run_network (h.quiet (Or.inl hclosed))
  rw [h.server]
  dsimp only
  rw [hmoves.session c]

theorem act (h : LifeInv P options s first handlers) {event : LifeEvent Cid} (halone : s.StartsAlone event)
    (hact : s.act P options event = .ok s') : ∃ first' handlers', LifeInv P options s' first' handlers' := by
  cases act_cases hact with
  | nothing => exact ⟨first, handlers, h⟩
  | start hstart =>
    obtain ⟨first', hinv⟩ := h.start (halone rfl) hstart
    exact ⟨first', handlers, hinv⟩
  | stop hstop => exact ⟨first, handlers, h.stop hstop⟩
  | wait => exact ⟨first, handlers, h.wait⟩
  | @onAccept _ c hruns haccept =>
    obtain ⟨hpos, server, hserver, rfl⟩ := onAccept_eq h.isStopped haccept
    cases c with
    | none =>
      cases hserver
      exact ⟨first, handlers, h⟩
    | some c =>
      have hstep : s.server.step P (c, .accept) = some server := hserver
      have hnext : Server.next P s.server (c, .accept) = server := by
        unfold Server.next
        rw [hstep, Option.getD_some]
      rw [← hnext]
      exact ⟨first, _, h.handler hruns (h.accepts.mpr hpos) (c, .accept)⟩
  | network hnetwork => exact ⟨first, _, h.network hnetwork⟩
  | @handler c event hruns hserver haccept =>
    rcases Bool.eq_false_or_eq_true s.opened with hopened | hclosed
    · exact ⟨first, _, h.handler hruns hopened (c, event)⟩
    · rw [Server.next_created (h.created hclosed c) hserver haccept]
      exact ⟨first, handlers, h⟩

end LifeInv

theorem lifeInv_constructed (P : Platform) (options : Options) (numThreads : UInt32) (disk : Disk) :
    LifeInv P options (constructed numThreads { store := ⟨disk, {}⟩ } : DatabaseServerImpl Cid) ⟨disk, {}⟩ [] where
  isStopped := rfl
  acceptorOpen := rfl
  accepts := by simp [constructed]
  opened h := by cases h
  server := rfl
  store _ := rfl
  quiet _ handler hhandler := absurd hhandler List.not_mem_nil

/-- What a service that was stopped leaves alone. -/
structure Frozen (before s : DatabaseServerImpl Cid) : Prop where
  serviceStopped : s.serviceStopped = true
  calls : s.server.calls = before.server.calls
  session : ∀ c, (s.server.served c).session = (before.server.served c).session
  outgoing : ∀ c, (s.server.served c).outgoing = (before.server.served c).outgoing

theorem Frozen.act {before : DatabaseServerImpl Cid} (h : Frozen before s) {event : LifeEvent Cid}
    (hact : s.act P options event = .ok s') : Frozen before s' := by
  have hruns : s.runs = false := by
    rw [runs, h.serviceStopped]
    rfl
  cases act_cases hact with
  | nothing => exact h
  | start hstart =>
    obtain ⟨disk, engine, base, -, -, rfl⟩ := start_eq hstart
    exact ⟨h.serviceStopped, h.calls, h.session, h.outgoing⟩
  | stop hstop =>
    obtain ⟨base, rfl⟩ := stop_eq hstop
    exact ⟨rfl, h.calls, h.session, h.outgoing⟩
  | wait => exact ⟨h.serviceStopped, h.calls, h.session, h.outgoing⟩
  | onAccept hruns' haccept => exact absurd (hruns'.symm.trans hruns) (by decide)
  | handler hruns' hserver haccept => exact absurd (hruns'.symm.trans hruns) (by decide)
  | @network c event hnetwork =>
    have hmoves : MovesBytes s.server (Server.next P s.server (c, event)) := Server.next_network hnetwork
    exact ⟨h.serviceStopped, hmoves.calls.trans h.calls, fun c => (hmoves.session c).trans (h.session c),
      fun c => (hmoves.outgoing c).trans (h.outgoing c)⟩

/-- Where no start is called while a thread is in `wait`, one run of the server, on the store of one open, is all there
is between the first start and the first stop: before it no session is accepted, and after it calls, sessions and
responses stay as they are, whatever is called and started then. The flag of the acceptor never stops anything, and from
the first start on an accept waits. -/
theorem served_until_stopped (P : Platform) (options : Options) (numThreads : UInt32) (disk : Disk)
    {s : DatabaseServerImpl Cid} {events : List (LifeEvent Cid)}
    (halone : Runs.MeetsFaulty (act P options) StartsAlone (constructed numThreads { store := ⟨disk, {}⟩ }) events)
    (hlife : events.foldlM (act P options) (constructed numThreads { store := ⟨disk, {}⟩ }) = .ok s) :
    (s.isStopped = false ∧ s.acceptorOpen = true ∧ (s.opened = true ↔ 0 < s.accepts)) ∧
      (∃ first handlers, let t := Runs.run (Server.next P) { store := first } handlers
        (s.opened = true → ∃ store, reopen P options store = (first.disk, .ok first.engine)) ∧
        s.server = { t with store := s.server.store } ∧ (s.serviceStopped = false → s.server.store = t.store) ∧
        (s.opened = false → ∀ handler ∈ handlers, handler.2.ofServer = false)) ∧
      (s.serviceStopped = true → ∀ (later : List (LifeEvent Cid)) s', later.foldlM (act P options) s = .ok s' →
        s'.server.calls = s.server.calls ∧ ∀ c, (s'.server.served c).session = (s.server.served c).session ∧
          (s'.server.served c).outgoing = (s.server.served c).outgoing) := by
  have hinv : ∃ first handlers, LifeInv P options s first handlers := by
    refine Runs.foldlM_inv (fun s => ∃ first handlers, LifeInv P options s first handlers) ?_ halone
      ⟨_, _, lifeInv_constructed P options numThreads disk⟩ hlife
    rintro s event s' ⟨first, handlers, h⟩ halone hact
    exact h.act halone hact
  obtain ⟨first, handlers, h⟩ := hinv
  refine ⟨⟨h.isStopped, h.acceptorOpen, h.accepts⟩, ?_, ?_⟩
  · exact ⟨first, handlers, h.opened, h.server, h.store, fun hclosed => h.quiet (Or.inl hclosed)⟩
  · intro hstopped later s' hlater
    have hany : Runs.MeetsFaulty (act P options) (fun _ _ => True) s later :=
      Runs.MeetsFaulty.of_forall (fun _ _ => trivial) s later
    have hfrozen : Frozen s s' := Runs.foldlM_inv (Frozen s) (fun s event s' h _ hact => h.act hact) hany
      ⟨hstopped, rfl, fun c => rfl, fun c => rfl⟩ hlater
    exact ⟨hfrozen.calls, fun c => ⟨hfrozen.session c, hfrozen.outgoing c⟩⟩

/-- A server is stopped when a session has the length of its request, and started again. -/
def stoppedAndStarted : List (LifeEvent Unit) :=
  [.start, .connection () (.send [1, 0, 0, 0, 7]), .connection () (.deliver 5), .onAccept (some ()),
    .connection () (.receive 4), .stop, .start]

/-- The session waits for its handler, which never runs. -/
theorem served_until_stopped_again :
    ∃ s, stoppedAndStarted.foldlM (act plainPlatform plainOptions) (constructed 1 { store := ⟨{}, {}⟩ }) = .ok s ∧
      (s.server.served ()).session.phase = .reading ∧ (s.server.served ()).session.reader.remaining = 0 ∧
      ∀ (later : List (LifeEvent Unit)) s', later.foldlM (act plainPlatform plainOptions) s = .ok s' →
        (s'.server.served ()).session = (s.server.served ()).session ∧ (s'.server.served ()).outgoing = [] := by
  obtain ⟨s, hlife, hphase, hremaining, houtgoing, hstopped⟩ : ∃ s,
      stoppedAndStarted.foldlM (act plainPlatform plainOptions) (constructed 1 { store := ⟨{}, {}⟩ }) = .ok s ∧
        (s.server.served ()).session.phase = .reading ∧ (s.server.served ()).session.reader.remaining = 0 ∧
        (s.server.served ()).outgoing = [] ∧ s.serviceStopped = true := ⟨_, rfl, rfl, rfl, rfl, rfl⟩
  have halone : Runs.MeetsFaulty (act plainPlatform plainOptions) StartsAlone
      (constructed 1 { store := ⟨{}, {}⟩ }) stoppedAndStarted := by
    refine ⟨fun _ => rfl, ?_⟩
    rintro _ ⟨⟩
    -- the handlers and the stop between the two starts
    iterate 5
      refine ⟨nofun, ?_⟩
      rintro _ ⟨⟩
    exact ⟨fun _ => rfl, fun _ _ => trivial⟩
  obtain ⟨-, -, hfrozen⟩ := served_until_stopped plainPlatform plainOptions 1 {} halone hlife
  refine ⟨s, hlife, hphase, hremaining, ?_⟩
  intro later s' hlater
  obtain ⟨-, hsessions⟩ := hfrozen hstopped later s' hlater
  exact ⟨(hsessions ()).1, (hsessions ()).2.trans houtgoing⟩

end DatabaseServerImpl

end Networking

end OmxDb
