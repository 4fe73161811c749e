import OmxDb.Lib.Linearization
import OmxDb.MapSemantics
import OmxDb.Service
import Mathlib.Algebra.BigOperators.Group.Finset.Basic
import Mathlib.Algebra.Order.BigOperators.Group.Finset
import Mathlib.Data.Prod.Lex

/-!
# What clients can rely on

Whatever the connections do, the requests of the clients are linearizable as calls of `Database::handle` on one store:
each takes effect where the server handles it, and what a client is promised is what `handle` returned there. Where
the service comes to rest without socket errors and the process of the server still runs, every client has the response
to its request, which was handled once.
-/

namespace OmxDb

namespace Networking

open Histories Linearization

variable {Cid : Type*}

/-! ### Requests as calls -/

/-- `handle` as an object. What it does depends on the output streams that open meanwhile. -/
def databaseObject (P : Platform) (store : Store) (asked : SnapshotStreams × Request) :
    Store × Except Fault Response :=
  StorageEngine.handle P asked.1 store asked.2

/-- A client calls where it is run, and its call returns where its promise gets a response. -/
def clientCalls (w : Workload Cid) (log : List (Cid × Happening)) :
    Calls Cid (SnapshotStreams × Request) (Except Fault Response) where
  invokedAt c asked m := asked = (w.opened c, w.request c) ∧ log[m]? = some (c, .invoke)
  returnedAt c result m := ∃ response, result = .ok response ∧ log[m]? = some (c, .answer response)

/-- The size of a response of `handle` fits the content length. -/
def Happening.Fits : Happening → Prop
  | .handle _ (.ok response) => 5 + response.value.size < 2 ^ 32
  | _ => True

instance : DecidablePred Happening.Fits
  | .handle _ (.ok response) => inferInstanceAs (Decidable (5 + response.value.size < 2 ^ 32))
  | .handle _ (.error _) => inferInstanceAs (Decidable True)
  | .invoke => inferInstanceAs (Decidable True)
  | .answer _ => inferInstanceAs (Decidable True)

def ResponsesFit (log : List (Cid × Happening)) : Prop := ∀ entry ∈ log, entry.2.Fits

/-- The client of a call of `handle`. -/
def handledClient (entry : Cid × Happening) : Option Cid :=
  match entry.2 with
  | .handle _ _ => some entry.1
  | _ => none

theorem handledClient_eq_some {entry : Cid × Happening} {c : Cid} :
    handledClient entry = some c ↔ ∃ request result, entry = (c, .handle request result) := by
  obtain ⟨c', happening⟩ := entry
  cases happening <;> simp [handledClient]

section points

variable {P : Platform} {w : Workload Cid} {initial : Store} {s : Service Cid}

theorem ServiceInv.entry (h : ServiceInv P w initial s) {m : Nat} {entry : Cid × Happening}
    (hm : s.log[m]? = some entry) : EntryFacts P w initial (s.log.take m) entry :=
  h.entries _ _ _ (split_of_getElem? hm).1

theorem ServiceInv.invoke_unique (h : ServiceInv P w initial s) {c : Cid} {m m' : Nat}
    (hm : s.log[m]? = some (c, .invoke)) (hm' : s.log[m']? = some (c, .invoke)) : m = m' := by
  rcases Nat.lt_trichotomy m m' with hlt | heq | hlt
  · exact absurd (mem_take_of_getElem? hm hlt) (h.entry hm')
  · exact heq
  · exact absurd (mem_take_of_getElem? hm' hlt) (h.entry hm)

theorem ServiceInv.handle_unique (h : ServiceInv P w initial s) {c : Cid} {p p' : Nat} {request request' : Request}
    {result result' : Except Fault Response} (hp : s.log[p]? = some (c, .handle request result))
    (hp' : s.log[p']? = some (c, .handle request' result')) : p = p' := by
  rcases Nat.lt_trichotomy p p' with hlt | heq | hlt
  · exact absurd (mem_take_of_getElem? hp hlt) ((h.entry hp').2.2.1 request result)
  · exact heq
  · exact absurd (mem_take_of_getElem? hp' hlt) ((h.entry hp).2.2.1 request' result')

theorem ServiceInv.exists_position (h : ServiceInv P w initial s) {c : Cid} {request : Request}
    {result : Except Fault Response} {m : Nat} (hmem : (c, Happening.handle request result) ∈ s.log.take m) :
    ∃ p < m, s.log[p]? = some (c, .handle (w.request c) result) := by
  obtain ⟨p, hlt, hp⟩ := exists_getElem?_of_mem_take hmem
  have hrequest : request = w.request c := (h.entry hp).1
  rw [hrequest] at hp
  exact ⟨p, hlt, hp⟩

theorem ServiceInv.nodup_handled (h : ServiceInv P w initial s) : (s.log.filterMap handledClient).Nodup := by
  apply nodup_filterMap
  intro before entry after hsplit c hc hmem
  obtain ⟨request, result, rfl⟩ := handledClient_eq_some.mp hc
  obtain ⟨entry, hentry, hclient⟩ := List.mem_filterMap.mp hmem
  obtain ⟨request', result', rfl⟩ := handledClient_eq_some.mp hclient
  exact (h.entries _ _ _ hsplit).2.2.1 request' result' hentry

theorem ServiceInv.exists_points (h : ServiceInv P w initial s) (hfit : ResponsesFit s.log) :
    Nonempty (Points (databaseObject P) (clientCalls w s.log) (fun k => storeAt P w initial (s.log.take k))
      s.log.length) := by
  have hchoice : ∀ c, ∃ (p : Nat) (result : Except Fault Response), c ∈ s.log.filterMap handledClient →
      s.log[p]? = some (c, Happening.handle (w.request c) result) := by
    intro c
    by_cases hmem : c ∈ s.log.filterMap handledClient
    · obtain ⟨entry, hentry, hclient⟩ := List.mem_filterMap.mp hmem
      obtain ⟨request, result, rfl⟩ := handledClient_eq_some.mp hclient
      rw [← List.take_length (l := s.log)] at hentry
      obtain ⟨p, -, hp⟩ := h.exists_position hentry
      exact ⟨p, result, fun _ => hp⟩
    · exact ⟨0, .ok (Response.make .Ok ByteString.empty), fun hc => absurd hc hmem⟩
  choose point result hposition using hchoice
  have hincluded : ∀ {c request result'} {p : Nat}, s.log[p]? = some (c, Happening.handle request result') →
      c ∈ s.log.filterMap handledClient := by
    intro c p request result' hp
    exact List.mem_filterMap.mpr ⟨_, List.mem_of_getElem? hp, handledClient_eq_some.mpr ⟨_, _, rfl⟩⟩
  have hinvoked : ∀ c ∈ s.log.filterMap handledClient, ∃ m < point c, s.log[m]? = some (c, .invoke) := by
    intro c hc
    obtain ⟨-, hinvoke, -⟩ := h.entry (hposition c hc)
    exact exists_getElem?_of_mem_take hinvoke
  have heffect : ∀ c ∈ s.log.filterMap handledClient,
      databaseObject P (storeAt P w initial (s.log.take (point c))) (w.opened c, w.request c)
        = (storeAt P w initial (s.log.take (point c + 1)), result c) := by
    intro c hc
    obtain ⟨-, -, -, hresult⟩ := h.entry (hposition c hc)
    rw [List.take_add_one, hposition c hc, Option.toList_some, storeAt_append, hresult]
    rfl
  exact ⟨{
    included := s.log.filterMap handledClient
    operation := fun c => (w.opened c, w.request c)
    answer := result
    point := point
    writes := fun _ => true
    unique := h.nodup_handled
    point_lt := fun c hc => (List.getElem?_eq_some_iff.mp (hposition c hc)).1
    invoked := by
      intro c hc
      obtain ⟨m, -, hm⟩ := hinvoked c hc
      exact ⟨m, rfl, hm⟩
    behind := by
      rintro c hc asked m ⟨-, hm⟩
      obtain ⟨m', hlt, hm'⟩ := hinvoked c hc
      rw [h.invoke_unique hm hm']
      exact Nat.le_of_lt hlt
    returned := by
      rintro c result' m ⟨response, rfl, hm⟩
      obtain ⟨response', hcall, hequal⟩ := h.entry hm
      obtain ⟨p, hlt, hp⟩ := h.exists_position hcall
      have hc := hincluded hp
      have hpoint := h.handle_unique (hposition c hc) hp
      refine ⟨hc, ?_, by omega⟩
      have hsame := hposition c hc
      rw [hpoint, hp] at hsame
      have hresult : result c = .ok response' := by simpa using hsame.symm
      rw [hresult, hequal (hfit _ (List.mem_of_getElem? hp))]
    reads_state := fun c hc hreads => by cases hreads
    writes_state := fun c hc _ => heffect c hc
    alone := by
      intro c hc c' hc' _ _ hpoint
      have hp := hposition c hc
      rw [hpoint, hposition c' hc'] at hp
      cases hp
      rfl
    still := by
      intro k hk hnone
      obtain ⟨entry, hentry⟩ : ∃ entry, s.log[k]? = some entry := ⟨_, List.getElem?_eq_getElem hk⟩
      show storeAt P w initial (s.log.take (k + 1)) = storeAt P w initial (s.log.take k)
      rw [List.take_add_one, hentry, Option.toList_some, storeAt_append]
      obtain ⟨c, happening⟩ := entry
      cases happening with
      | handle request result' =>
        have hc := hincluded hentry
        cases hnone c hc (h.handle_unique (hposition c hc) hentry)
      | _ => rfl }⟩

end points

/-- Whatever the connections do, the lawful requests of a workload are linearizable as calls of `handle` on the store
the server started with, and the store is what these calls leave of it, if the responses of `handle` fit the content
length. -/
theorem service_linearizable [DecidableEq Cid] (P : Platform) (w : Workload Cid) (store : Store)
    (events : List (ServiceEvent Cid))
    (hfit : ResponsesFit (Runs.run (Service.next P w) { store := store } events).log) :
    let s := Runs.run (Service.next P w) { store := store } events
    ∃ order, Linearizes (databaseObject P) (clientCalls w s.log) store s.store order := by
  intro s
  have hinv : ServiceInv P w store s := (serviceInv_initial P w store).run events
  obtain ⟨points⟩ := hinv.exists_points hfit
  refine ⟨points.answered, ?_⟩
  have hlinearizes := points.linearizes
  rw [List.take_length, ← hinv.store, List.take_zero] at hlinearizes
  exact hlinearizes

/-! ### Coming to rest -/

/-- A socket error, or a resolver that throws. -/
def ServiceEvent.isError : ServiceEvent Cid → Bool
  | .connection _ event => event.isError
  | .onRequestReceived _ => false

/-- Bytes behind a frame. -/
def ServiceEvent.isFollow : ServiceEvent Cid → Bool
  | .connection _ event => event.isFollow
  | .onRequestReceived _ => false

section rest

variable [DecidableEq Cid] {P : Platform} {w : Workload Cid} {initial : Store} {s s' : Service Cid}

/-- Nothing is left to do on any connection. -/
def Service.AtRest (P : Platform) (w : Workload Cid) (s : Service Cid) : Prop :=
  ∀ event : ServiceEvent Cid, event.isError = false → event.isFollow = false → s.step P w event = none

theorem Service.step_connection {event : ServiceEvent Cid} (hstep : s.step P w event = some s') :
    ∃ c event' n, event'.isError = event.isError ∧ event'.isFollow = event.isFollow ∧
      Networking.step P (w.request c) (s.connections c) event' = some n ∧
      s'.connections = Function.update s.connections c n := by
  cases step_cases hstep with
  | connection hserve hserver hnetwork => exact ⟨_, _, _, rfl, rfl, hnetwork, rfl⟩
  | onRequestReceived halive hnetwork => exact ⟨_, _, _, rfl, rfl, hnetwork, rfl⟩

theorem sum_update_lt [Fintype Cid] {α : Type*} {left : α → Nat} {parts : Cid → α} {c : Cid} {part : α}
    (h : left part < left (parts c)) :
    ∑ c', left (Function.update parts c part c') < ∑ c', left (parts c') := by
  apply Finset.sum_lt_sum
  · intro c' _
    by_cases hne : c' = c
    · subst hne
      rw [Function.update_self]
      exact Nat.le_of_lt h
    · rw [Function.update_of_ne hne]
  · refine ⟨c, Finset.mem_univ c, ?_⟩
    rw [Function.update_self]
    exact h

theorem sum_update_eq [Fintype Cid] {α : Type*} {left : α → Nat} {parts : Cid → α} {c : Cid} {part : α}
    (h : left part = left (parts c)) :
    ∑ c', left (Function.update parts c part c') = ∑ c', left (parts c') := by
  apply Finset.sum_congr rfl
  intro c' _
  by_cases hne : c' = c
  · subst hne
    rw [Function.update_self, h]
  · rw [Function.update_of_ne hne]

theorem Service.descends [Fintype Cid] (P : Platform) (w : Workload Cid) :
    Runs.Descends (Service.step P w) (fun event : ServiceEvent Cid => event.isError = false ∧ event.isFollow = false)
      (fun _ => True) (· < ·) fun s : Service Cid =>
        toLex (∑ c, (s.connections c).handlersLeft, ∑ c, (s.connections c).bytesLeft) where
  wf := wellFounded_lt
  step := by
    rintro s s' event - ⟨herror, hfollow⟩ hstep
    obtain ⟨c, event', n, herror', hfollow', hn, hconnections⟩ := Service.step_connection hstep
    refine ⟨trivial, ?_⟩
    rw [Prod.Lex.toLex_lt_toLex, hconnections]
    rcases step_decreases (herror'.trans herror) (hfollow'.trans hfollow) hn with hhandlers | ⟨heq, hbytes⟩
    · exact Or.inl (sum_update_lt hhandlers)
    · exact Or.inr ⟨sum_update_eq heq, sum_update_lt hbytes⟩

/-- What holds without errors: every connection is orderly, and a server that runs has a response for every request it
handled. -/
structure Undisturbed (s : Service Cid) : Prop where
  orderly : ∀ c, Orderly (s.connections c)
  answered : s.alive = true → ∀ c, ∀ call ∈ (s.connections c).server.handled, ∃ response, call.2 = .ok response

omit [DecidableEq Cid] in
theorem undisturbed_initial (store : Store) : Undisturbed ({ store := store } : Service Cid) where
  orderly _ := orderly_initial
  answered _ _ _ hcall := absurd hcall List.not_mem_nil

theorem Inv.response {request : Request} {n n' : Network} (h : Inv request n) (hlawful : request.Lawful)
    {opened : SnapshotStreams} {store : Store}
    (hstep : Networking.step P request n (.onRequestReceived opened store) = some n')
    (hwriting : n'.server.phase = .writing) : ∃ response, n'.server.handled = [(request, .ok response)] := by
  have hcall := (h.handles hlawful hstep).2.2.2
  cases hresult : (StorageEngine.handle P opened store request).2 with
  | ok response => exact ⟨response, by rw [hcall, hresult]⟩
  | error fault =>
    cases Networking.step_cases hstep with
    | onRequestReceived hphase hcontent hremaining hserve =>
      obtain ⟨tail, htail⟩ := h.readsRequest hphase hcontent hremaining
      rw [h.serving.onRequestReceived_eq hlawful htail hphase hcontent hremaining, hresult] at hserve
      cases hserve
      cases hwriting

theorem Undisturbed.step (h : Undisturbed s) (hinv : ServiceInv P w initial s) {event : ServiceEvent Cid}
    (herror : event.isError = false) (hstep : s.step P w event = some s') : Undisturbed s' := by
  have horderly : ∀ {c : Cid} {event' : Event} {n : Network}, event'.isError = false →
      Networking.step P (w.request c) (s.connections c) event' = some n →
      ∀ c', Orderly (Function.update s.connections c n c') := by
    intro c event' n herror' hn c'
    by_cases hne : c' = c
    · subst hne
      rw [Function.update_self]
      exact (h.orderly c').step (w.lawful c') (hinv.exchange c') herror' hn
    · rw [Function.update_of_ne hne]
      exact h.orderly c'
  cases Service.step_cases hstep with
  | @connection c event n hserve hserver hn =>
    refine ⟨horderly herror hn, ?_⟩
    intro halive c' call hcall
    change call ∈ (Function.update s.connections c n c').server.handled at hcall
    by_cases hne : c' = c
    · subst hne
      rw [Function.update_self, (step_records hserve hn).1] at hcall
      exact h.answered halive c' call hcall
    · rw [Function.update_of_ne hne] at hcall
      exact h.answered halive c' call hcall
  | @onRequestReceived c n halive hn =>
    refine ⟨horderly rfl hn, ?_⟩
    intro hwriting c' call hcall
    change call ∈ (Function.update s.connections c n c').server.handled at hcall
    by_cases hne : c' = c
    · subst hne
      obtain ⟨response, hresponse⟩ := (hinv.exchange c').response (w.lawful c') hn (of_decide_eq_true hwriting)
      rw [Function.update_self, hresponse] at hcall
      exact ⟨response, by rw [List.mem_singleton.mp hcall]⟩
    · rw [Function.update_of_ne hne] at hcall
      exact h.answered halive c' call hcall

theorem Service.AtRest.connection (h : s.AtRest P w) (halive : s.alive = true) (c : Cid) :
    Networking.AtRest P (w.request c) (s.connections c) := by
  intro event herror hfollow
  by_cases hserve : event.handlesRequest = true
  · cases event with
    | onRequestReceived opened store =>
      have hnone := h (.onRequestReceived c) rfl rfl
      simp only [Service.step, halive, if_true, Option.map_eq_none_iff] at hnone
      simp only [Networking.step] at hnone ⊢
      split_ifs at hnone ⊢ with hcond
      · split at hnone <;> cases hnone
      · rfl
    | _ => cases hserve
  · have hnone := h (.connection c event) herror hfollow
    rw [Bool.not_eq_true] at hserve
    simpa [Service.step, hserve, halive] using hnone

end rest

/-- Finitely many clients and a server come to rest from every state, by steps without errors. A run without errors
that has come to rest while the server runs has given every client the response to its request, which was handled once,
if the responses of `handle` fit the content length. Every send is whole: behind a shorter one both ends wait
(`Sends.waiting_run`). -/
theorem service_comes_to_rest [Fintype Cid] [DecidableEq Cid] (P : Platform) (w : Workload Cid) (store : Store)
    (events : List (ServiceEvent Cid)) :
    let s := Runs.run (Service.next P w) { store := store } events
    (∃ more : List (ServiceEvent Cid), (∀ event ∈ more, event.isError = false ∧ event.isFollow = false) ∧
        (Runs.run (Service.next P w) s more).AtRest P w) ∧
      ((∀ event ∈ events, event.isError = false) → s.AtRest P w → s.alive = true → ResponsesFit s.log →
        ∀ c, Fulfilled (w.request c) (s.connections c)) := by
  intro s
  obtain ⟨more, hmore, hrest'⟩ := (Service.descends P w).exists_rest (s := s) trivial
  refine ⟨⟨more, hmore, fun event herror hfollow => hrest' event ⟨herror, hfollow⟩⟩, ?_⟩
  intro hevents hrest halive hfit c
  obtain ⟨hinv, hundisturbed⟩ : ServiceInv P w store s ∧ Undisturbed s := by
    refine Runs.run_inv (fun s => ServiceInv P w store s ∧ Undisturbed s) ?_
      (Runs.Meets.of_forall (Service.next P w) _ hevents) ⟨serviceInv_initial P w store, undisturbed_initial store⟩
    rintro s event ⟨hinv, hundisturbed⟩ herror
    unfold Service.next
    cases hstep : s.step P w event with
    | none => exact ⟨hinv, hundisturbed⟩
    | some s' => exact ⟨hinv.step hstep, hundisturbed.step hinv herror hstep⟩
  refine (hundisturbed.orderly c).fulfilled (w.lawful c) (hinv.exchange c) (hrest.connection halive c) ?_
  rintro ⟨request, result⟩ hcall
  obtain ⟨response, rfl⟩ := hundisturbed.answered halive c _ hcall
  exact ⟨response, rfl, hfit _ ((hinv.handled c request (.ok response)).mpr hcall)⟩

theorem Service.atRest_of_connections [DecidableEq Cid] {P : Platform} {w : Workload Cid} {s : Service Cid}
    (h : ∀ c, Networking.AtRest P (w.request c) (s.connections c)) : s.AtRest P w := by
  intro event herror hfollow
  cases event with
  | connection c event =>
    simp only [Service.step]
    rw [h c event herror hfollow, Option.map_none, ite_self]
  | onRequestReceived c =>
    simp only [Service.step]
    rw [h c _ rfl rfl, Option.map_none, ite_self]

/-- One client puts a key, the other gets it. -/
def putAndGet : Bool → Request
  | false => Request.make .Put ⟨1⟩ (.single 97)
  | true => Request.make .Get ⟨1⟩ ByteString.empty

theorem lawful_putAndGet : ∀ c, (putAndGet c).Lawful
  | false => Request.make_lawful (by decide)
  | true => Request.make_lawful (by decide)

def twoClients : Workload Bool where
  request := putAndGet
  lawful := lawful_putAndGet

/-- Steps of one connection. -/
def stepsOf (c : Bool) (events : List Event) : List (ServiceEvent Bool) := events.map (.connection c)

/-- Both requests are on their way when the first is handled, and the second client has its response first. -/
def bothServed : List (ServiceEvent Bool) :=
  List.flatten [
    stepsOf false [.run, .onResolve, .onConnect, .accept, .deliverRequest 18, .receiveRequest 4],
    stepsOf true [.run, .onResolve, .accept, .onConnect, .onSend, .deliverRequest 17, .receiveRequest 3],
    stepsOf false [.onContentLengthReceived, .receiveRequest 14, .onSend],
    [.onRequestReceived false],
    stepsOf true [.receiveRequest 1, .onContentLengthReceived, .receiveRequest 13],
    [.onRequestReceived true],
    stepsOf true [.onResponseSent, .deliverResponse 10, .receiveResponse 4, .onContentLengthReceive,
      .receiveResponse 6, .onReceive],
    stepsOf false [.deliverResponse 9, .onResponseSent, .receiveResponse 4, .onContentLengthReceive,
      .receiveResponse 5, .onReceive]]

theorem responsesFit_bothServed : ResponsesFit
    (Runs.run (Service.next plainPlatform twoClients) { store := freshSession.store } bothServed).log := by
  unfold ResponsesFit
  decide +kernel

/-- The get has the value that was put. -/
theorem service_linearizable_bothServed :
    let s := Runs.run (Service.next plainPlatform twoClients) { store := freshSession.store } bothServed
    (true, Happening.answer (Response.make .Ok (.single 97))) ∈ s.log ∧
      ∃ order, Linearizes (databaseObject plainPlatform) (clientCalls twoClients s.log) freshSession.store s.store
        order :=
  ⟨by decide +kernel,
    service_linearizable plainPlatform twoClients freshSession.store bothServed responsesFit_bothServed⟩

theorem service_comes_to_rest_bothServed :
    (Runs.run (Service.next plainPlatform twoClients) { store := freshSession.store } bothServed).alive = true ∧
      ∀ c, Fulfilled (putAndGet c)
        ((Runs.run (Service.next plainPlatform twoClients) { store := freshSession.store }
          bothServed).connections c) := by
  refine ⟨by decide +kernel, (service_comes_to_rest plainPlatform twoClients freshSession.store bothServed).2
    (by decide) ?_ (by decide +kernel) responsesFit_bothServed⟩
  apply Service.atRest_of_connections
  intro c
  cases c with
  | false => exact atRest_of_finished (by decide +kernel) (by decide +kernel) (by decide +kernel) (by decide +kernel)
  | true => exact atRest_of_finished (by decide +kernel) (by decide +kernel) (by decide +kernel) (by decide +kernel)

end Networking

end OmxDb
