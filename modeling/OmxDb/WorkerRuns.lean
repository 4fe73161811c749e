import OmxDb.Workers

/-!
# Puts and gets over many connections

With any number of worker threads, the puts and gets that any number of clients ask for are linearizable as those of a
map, whatever the threads and the connections do. Each client's call contains the one call of `handle` that its request
leads to, and these are linearizable by themselves. A service that has come to rest has answered every client.
-/

namespace OmxDb

namespace Networking

open StorageEngine Histories Linearization

variable {Tid Cid : Type*}

/-! ### Invariants -/

/-- A thread with a job is in the call for its client, or has its answer. -/
structure JobFacts (w : Demand Cid) (s : Workers Tid Cid) (t : Tid) (job : Job Cid) : Prop where
  request : job.request = w.request job.client
  ready : (s.connections job.client).server.Ready
  call : ∃ n, s.called job.client = some n ∧
    (job.answer = none ∧ s.system.running t ≠ .idle ∧ Current s.system.history t n (w.asked job.client) ∨
      ∃ answer m, job.answer = some answer ∧ s.system.running t = .idle ∧ Returned s.system.history n answer m)

/-- A client is run before its call begins, and has its response after its call has returned. -/
structure LogFacts (s : Workers Tid Cid) : Prop where
  invoked : ∀ c, (∃ k, ((c, .invoke), k) ∈ s.log) ↔ (s.connections c).client.phase ≠ .created
  early : ∀ c k n, ((c, .invoke), k) ∈ s.log → s.called c = some n → k ≤ n
  late : ∀ c response k, ((c, .answer response), k) ∈ s.log → ∃ n answer m response', s.called c = some n ∧
    Returned s.system.history n answer m ∧ m < k ∧ answer.response = .ok response' ∧
      (5 + response'.value.size < 2 ^ 32 → response = response')
  sorted : (s.log.map Prod.snd).Pairwise (· ≤ ·)
  bounded : ∀ entry ∈ s.log, entry.2 ≤ s.system.history.length

structure WorkersInv (P : Platform) (options : Options) (w : Demand Cid) (s : Workers Tid Cid) : Prop where
  exchange : ∀ c, Inv (w.request c) (s.connections c)
  engine : ∃ segs flushed, SystemInv P options s.system segs flushed
  puts : PutsInv P options s.system
  idle : ∀ t, s.jobs t = none → s.system.running t = .idle
  jobs : ∀ t job, s.jobs t = some job → JobFacts w s t job
  alone : ∀ t t' job job', s.jobs t = some job → s.jobs t' = some job' → job.client = job'.client → t = t'
  begun : ∀ c n, s.called c = some n → (s.connections c).client.phase ≠ .created ∧
    ∃ t begun, s.system.history[n]? = some (t, begun) ∧ begun.asked = some (w.asked c)
  ended : ∀ c n, s.called c = some n → (∃ t job, s.jobs t = some job ∧ job.client = c) ∨
    ∃ answer m, Returned s.system.history n answer m ∧
      (s.connections c).server.handled = [(w.request c, answer.response)]
  uncalled : ∀ c, s.called c = none → (s.connections c).server.handled = []
  owned : ∀ (n : Nat) t begun, s.system.history[n]? = some (t, begun) → begun.asked ≠ none → ∃ c, s.called c = some n
  injective : ∀ c c' n, s.called c = some n → s.called c' = some n → c = c'
  log : LogFacts s

theorem update_eq_cases {α β : Type*} [DecidableEq α] {f : α → β} {a a' : α} {x y : β}
    (h : Function.update f a x a' = y) : a' = a ∧ x = y ∨ a' ≠ a ∧ f a' = y := by
  rcases eq_or_ne a' a with rfl | hne
  · exact Or.inl ⟨rfl, (Function.update_self ..).symm.trans h⟩
  · exact Or.inr ⟨hne, (Function.update_of_ne hne ..).symm.trans h⟩

section connections

variable [DecidableEq Tid] [DecidableEq Cid] {P : Platform} {options : Options} {w : Demand Cid}
  {s s' : Workers Tid Cid} {c : Cid} {n : Network}

omit [DecidableEq Tid] in
theorem forall_connect {p : Cid → Network → Prop} (hn : p c n) (h : ∀ c', c' ≠ c → p c' (s.connections c')) :
    ∀ c', p c' ((s.connect c n).connections c') :=
  (Function.forall_update_iff s.connections p).mpr ⟨hn, h⟩

omit [DecidableEq Tid] in
theorem LogFacts.connect (h : LogFacts s) {happening : Happening} (hone : recorded (s.connections c) n = [happening])
    (hinvoked : ∀ c', (∃ k, ((c', .invoke), k) ∈ s.log ++ [((c, happening), s.system.history.length)]) ↔
      ((s.connect c n).connections c').client.phase ≠ .created)
    (hearly : happening = .invoke → s.called c = none)
    (hlate : ∀ response, happening = .answer response → ∃ n answer m response', s.called c = some n ∧
      Returned s.system.history n answer m ∧ answer.response = .ok response' ∧
        (5 + response'.value.size < 2 ^ 32 → response = response')) : LogFacts (s.connect c n) := by
  have hlog : (s.connect c n).log = s.log ++ [((c, happening), s.system.history.length)] := by
    unfold Workers.connect
    rw [hone]
    rfl
  have hmem : ∀ {entry}, entry ∈ (s.connect c n).log →
      entry ∈ s.log ∨ entry = ((c, happening), s.system.history.length) := by
    intro entry hentry
    rw [hlog, List.mem_append, List.mem_singleton] at hentry
    exact hentry
  refine ⟨?_, ?_, ?_, ?_, ?_⟩
  · rw [hlog]
    exact hinvoked
  · intro c' k m hentry hcalled
    rcases hmem hentry with hold | heq
    · exact h.early c' k m hold hcalled
    · obtain ⟨⟨rfl, rfl⟩, -⟩ : (c' = c ∧ Happening.invoke = happening) ∧ k = s.system.history.length := by
        simpa using heq
      rw [show (s.connect c' n).called = s.called from rfl, hearly rfl] at hcalled
      cases hcalled
  · intro c' response k hentry
    rcases hmem hentry with hold | heq
    · exact h.late c' response k hold
    · obtain ⟨⟨rfl, rfl⟩, rfl⟩ : (c' = c ∧ Happening.answer response = happening) ∧
          k = s.system.history.length := by
        simpa using heq
      obtain ⟨n', answer, m, response', hcalled, hreturned, hresponse, hequal⟩ := hlate response rfl
      exact ⟨n', answer, m, response', hcalled, hreturned, hreturned.lt_length, hresponse, hequal⟩
  · rw [hlog, List.map_append, List.pairwise_append]
    refine ⟨h.sorted, List.pairwise_singleton _ _, ?_⟩
    intro k hk k' hk'
    obtain ⟨entry, hentry, rfl⟩ := List.mem_map.mp hk
    rw [List.map_singleton, List.mem_singleton] at hk'
    rw [hk']
    exact h.bounded entry hentry
  · intro entry hentry
    rcases hmem hentry with hold | rfl
    · exact h.bounded entry hold
    · exact le_refl _

omit [DecidableEq Tid] in
theorem WorkersInv.connection (h : WorkersInv P options w s) {event : Event} (hserve : event.handlesRequest = false)
    (hbusy : event.ofServer = true → s.busy c = false)
    (hstep : Networking.step P (w.request c) (s.connections c) event = some n) :
    WorkersInv P options w (s.connect c n) := by
  obtain ⟨hhandled, hrecords⟩ := step_records hserve hstep
  have hinv := (h.exchange c).step (w.lawful c) hstep
  have hcalls : ∀ c', ((s.connect c n).connections c').server.handled = (s.connections c').server.handled :=
    forall_connect (p := fun c' n' => n'.server.handled = (s.connections c').server.handled) hhandled fun c' _ => rfl
  have hphase : (s.connections c).client.phase ≠ .created → n.client.phase ≠ .created := by
    intro hbefore
    cases hrecords with
    | nothing hsame _ => exact fun hcreated => hbefore (hsame.mp hcreated)
    | invoke hcreated _ _ => exact absurd hcreated hbefore
    | answer _ hafter _ _ _ => exact hafter
  have hready : ∀ t job, s.jobs t = some job → job.client = c → n.server = (s.connections c).server := by
    intro t job hjob hclient
    obtain ⟨m, hcalled, -⟩ := (h.jobs t job hjob).call
    have hready := (h.jobs t job hjob).ready
    rw [hclient] at hready hcalled
    have hnil := ((h.exchange c).buffer_eq (w.lawful c) hready).2.1
    apply step_server ?_ hstep
    by_contra hserver
    have hfree := hbusy (eq_true_of_ne_false hserver)
    unfold Workers.busy at hfree
    rw [hcalled, hnil] at hfree
    cases hfree
  refine ⟨?_, h.engine, h.puts, h.idle, ?_, h.alone, ?_, ?_, ?_, h.owned, h.injective, ?_⟩
  · exact forall_connect hinv fun c' _ => h.exchange c'
  · intro t job hjob
    obtain ⟨hrequest, hready', hcall⟩ := h.jobs t job hjob
    refine ⟨hrequest, ?_, hcall⟩
    have hservers : ∀ c', c' = job.client → ((s.connect c n).connections c').server
        = (s.connections c').server :=
      forall_connect (p := fun c' n' => c' = job.client → n'.server = (s.connections c').server)
        (fun heq => hready t job hjob heq.symm) fun c' _ _ => rfl
    rw [hservers job.client rfl]
    exact hready'
  · intro c' m hcalled
    obtain ⟨hcreated, hbegun⟩ := h.begun c' m hcalled
    refine ⟨?_, hbegun⟩
    have hphases : ∀ c', (s.connections c').client.phase ≠ .created →
        ((s.connect c n).connections c').client.phase ≠ .created :=
      forall_connect (p := fun c' n' => (s.connections c').client.phase ≠ .created → n'.client.phase ≠ .created)
        hphase fun c' _ hcreated => hcreated
    exact hphases c' hcreated
  · intro c' m hcalled
    rw [hcalls]
    exact h.ended c' m hcalled
  · intro c' hnone
    rw [hcalls]
    exact h.uncalled c' hnone
  · cases hrecords with
    | nothing hsame hnone =>
      have hlog : (s.connect c n).log = s.log := by
        unfold Workers.connect
        rw [hnone, List.map_nil, List.append_nil]
      refine ⟨?_, ?_, ?_, ?_, ?_⟩
      · rw [hlog]
        refine forall_connect (p := fun c' n' => (∃ k, ((c', Happening.invoke), k) ∈ s.log) ↔
          n'.client.phase ≠ .created) ?_ fun c' _ => h.log.invoked c'
        rw [h.log.invoked, ne_eq, ne_eq, hsame]
      · rw [hlog]
        exact h.log.early
      · rw [hlog]
        exact h.log.late
      · rw [hlog]
        exact h.log.sorted
      · rw [hlog]
        exact h.log.bounded
    | invoke hcreated hafter hone =>
      refine h.log.connect hone ?_ ?_ (fun response heq => by cases heq)
      · refine forall_connect (p := fun c' n' => (∃ k, ((c', Happening.invoke), k) ∈ s.log
          ++ [((c, .invoke), s.system.history.length)]) ↔ n'.client.phase ≠ .created) ?_ ?_
        · exact iff_of_true ⟨s.system.history.length, by simp⟩ hafter
        · intro c' hne
          rw [← h.log.invoked]
          simp [hne]
      · intro _
        by_contra hcalled
        obtain ⟨m, hm⟩ := Option.ne_none_iff_exists'.mp hcalled
        exact (h.begun c m hm).1 hcreated
    | answer hbefore hafter response hpromise hone =>
      refine h.log.connect hone ?_ (fun heq => by cases heq) ?_
      · refine forall_connect (p := fun c' n' => (∃ k, ((c', Happening.invoke), k) ∈ s.log
          ++ [((c, .answer response), s.system.history.length)]) ↔ n'.client.phase ≠ .created) ?_ ?_
        · refine iff_of_true ?_ hafter
          obtain ⟨k, hk⟩ := (h.log.invoked c).mpr hbefore
          exact ⟨k, List.mem_append_left _ hk⟩
        · intro c' _
          rw [← h.log.invoked]
          simp
      · rintro response' ⟨⟩
        -- the client has the response of its call
        obtain ⟨response', hcall, hsize⟩ := hinv.receiving.value response hpromise
        rw [hhandled] at hcall
        cases hcalled : s.called c with
        | none =>
          rw [h.uncalled c hcalled] at hcall
          cases hcall
        | some m =>
          rcases h.ended c m hcalled with ⟨t, job, hjob, rfl⟩ | ⟨answer, m', hreturned, hanswered⟩
          · have hnil := ((h.exchange job.client).buffer_eq (w.lawful _) (h.jobs t job hjob).ready).2.1
            rw [hnil] at hcall
            cases hcall
          · rw [hanswered] at hcall
            have hresponse : answer.response = .ok response' := by simpa using hcall
            exact ⟨m, answer, m', response', rfl, hreturned, hresponse, hsize⟩

theorem WorkersInv.finish (h : WorkersInv P options w s) {t : Tid} {job : Job Cid} {answer : Answer}
    (hjob : s.jobs t = some job) (hanswer : job.answer = some answer) :
    WorkersInv P options w (s.finish t job answer) := by
  obtain ⟨hrequest, hready, m, hcalled, hcall⟩ := h.jobs t job hjob
  obtain ⟨hidle, m', hreturned⟩ : s.system.running t = .idle ∧ ∃ m', Returned s.system.history m answer m' := by
    rcases hcall with ⟨hnone, -⟩ | ⟨answer', m', hsome, hidle, hreturned⟩
    · rw [hanswer] at hnone
      cases hnone
    · rw [hanswer] at hsome
      cases hsome
      exact ⟨hidle, m', hreturned⟩
  obtain ⟨-, hnil, hcreated⟩ := (h.exchange job.client).buffer_eq (w.lawful job.client) hready
  have hinv : Inv (w.request job.client)
      ((s.connections job.client).respond (w.request job.client) answer.response) :=
    (h.exchange job.client).respond hready.1 fun response hresponse => Answer.response_made hresponse
  have hone : recorded (s.connections job.client)
      ((s.connections job.client).respond job.request answer.response) = [.handle job.request answer.response] := by
    unfold recorded
    rw [Network.respond_client, Network.respond_handled, hnil, if_neg fun h => h.2 h.1, List.drop_length]
    rfl
  have hjobs : ∀ t' job', Function.update s.jobs t none t' = some job' → t' ≠ t ∧ s.jobs t' = some job' := by
    intro t' job' hjob'
    rcases update_eq_cases hjob' with ⟨-, hnone⟩ | hold
    · cases hnone
    · exact hold
  have hothers : ∀ t' job', s.jobs t' = some job' → t' ≠ t → job'.client ≠ job.client :=
    fun t' job' hjob' hne heq => hne (h.alone t' t job' job hjob' hjob heq)
  unfold Workers.finish
  rw [hrequest] at hone ⊢
  have hlog : LogFacts (s.connect job.client
      ((s.connections job.client).respond (w.request job.client) answer.response)) := by
    refine h.log.connect hone ?_ (fun heq => by cases heq) (fun response heq => by cases heq)
    refine forall_connect (p := fun c' n' => (∃ k, ((c', Happening.invoke), k) ∈ s.log
      ++ [((job.client, .handle (w.request job.client) answer.response), s.system.history.length)]) ↔
        n'.client.phase ≠ .created) ?_ ?_
    · rw [Network.respond_client, ← h.log.invoked]
      simp
    · intro c' _
      rw [← h.log.invoked]
      simp
  refine ⟨?_, h.engine, h.puts, ?_, ?_, ?_, ?_, ?_, ?_, h.owned, h.injective, ?_⟩
  · exact forall_connect hinv fun c' _ => h.exchange c'
  · intro t' hnone
    rcases update_eq_cases hnone with ⟨rfl, -⟩ | ⟨-, hold⟩
    · exact hidle
    · exact h.idle t' hold
  · intro t' job' hjob'
    obtain ⟨hne, hjob'⟩ := hjobs t' job' hjob'
    obtain ⟨hrequest', hready', hcall'⟩ := h.jobs t' job' hjob'
    refine ⟨hrequest', ?_, hcall'⟩
    show (Function.update s.connections job.client _ job'.client).server.Ready
    rw [Function.update_of_ne (hothers t' job' hjob' hne)]
    exact hready'
  · intro t' t'' job' job'' hjob' hjob'' heq
    exact h.alone t' t'' job' job'' (hjobs t' job' hjob').2 (hjobs t'' job'' hjob'').2 heq
  · intro c' k hcalled'
    obtain ⟨hcreated', hbegun⟩ := h.begun c' k hcalled'
    refine ⟨?_, hbegun⟩
    refine forall_connect (p := fun c' n' => (s.connections c').client.phase ≠ .created →
      n'.client.phase ≠ .created) ?_ (fun c' _ hphase => hphase) c' hcreated'
    rw [Network.respond_client]
    exact id
  · intro c' k hcalled'
    change s.called c' = some k at hcalled'
    show (∃ t' job', Function.update s.jobs t none t' = some job' ∧ job'.client = c') ∨
      ∃ answer m, Returned s.system.history k answer m ∧
        (Function.update s.connections job.client _ c').server.handled = [(w.request c', answer.response)]
    by_cases hne : c' = job.client
    · subst hne
      rw [hcalled] at hcalled'
      cases hcalled'
      refine Or.inr ⟨answer, m', hreturned, ?_⟩
      rw [Function.update_self, Network.respond_handled, hnil, List.nil_append]
    · rw [Function.update_of_ne hne]
      rcases h.ended c' k hcalled' with ⟨t', job', hjob', hclient⟩ | hdone
      · refine Or.inl ⟨t', job', ?_, hclient⟩
        rw [Function.update_of_ne]
        · exact hjob'
        · rintro rfl
          rw [hjob] at hjob'
          cases hjob'
          exact hne hclient.symm
      · exact Or.inr hdone
  · intro c' hnone
    change s.called c' = none at hnone
    show (Function.update s.connections job.client _ c').server.handled = []
    rw [Function.update_of_ne]
    · exact h.uncalled c' hnone
    · rintro rfl
      rw [hcalled] at hnone
      cases hnone
  · exact ⟨hlog.invoked, hlog.early, hlog.late, hlog.sorted, hlog.bounded⟩

end connections

section turns

variable [DecidableEq Tid] [DecidableEq Cid] {P : Platform} {options : Options} {w : Demand Cid}
  {s s' : Workers Tid Cid} {t : Tid} {c : Cid}

omit [DecidableEq Tid] [DecidableEq Cid] in
theorem LogFacts.grow (h : LogFacts s) (hconnections : s'.connections = s.connections) (hlog : s'.log = s.log)
    {entries : List (Tid × OmxDb.Happening)} (hhistory : s'.system.history = s.system.history ++ entries)
    (hcalled : ∀ c n, s'.called c = some n → s.called c = some n ∨ n = s.system.history.length)
    (hkept : ∀ c n, s.called c = some n → s'.called c = some n) : LogFacts s' := by
  have hlength : s.system.history.length ≤ s'.system.history.length := by
    rw [hhistory, List.length_append]
    exact Nat.le_add_right _ _
  refine ⟨?_, ?_, ?_, ?_, ?_⟩
  · rw [hlog, hconnections]
    exact h.invoked
  · intro c k n hentry hn
    rw [hlog] at hentry
    rcases hcalled c n hn with hold | rfl
    · exact h.early c k n hentry hold
    · exact h.bounded _ hentry
  · intro c response k hentry
    rw [hlog] at hentry
    obtain ⟨n, answer, m, response', hn, hreturned, hlt, hresponse, hequal⟩ := h.late c response k hentry
    rw [hhistory]
    exact ⟨n, answer, m, response', hkept c n hn, hreturned.append entries, hlt, hresponse, hequal⟩
  · rw [hlog]
    exact h.sorted
  · intro entry hentry
    rw [hlog] at hentry
    exact Nat.le_trans (h.bounded entry hentry) hlength

omit [DecidableEq Tid] [DecidableEq Cid] in
theorem JobFacts.grow {job : Job Cid} (h : JobFacts w s t job) (hconnections : s'.connections = s.connections)
    {entries : List (Tid × OmxDb.Happening)} (hhistory : s'.system.history = s.system.history ++ entries)
    (hkept : ∀ c n, s.called c = some n → s'.called c = some n) (hrunning : s'.system.running t = s.system.running t)
    (hothers : ∀ entry ∈ entries, entry.1 ≠ t) : JobFacts w s' t job := by
  obtain ⟨hrequest, hready, n, hcalled, hcall⟩ := h
  refine ⟨hrequest, by rw [hconnections]; exact hready, n, hkept _ n hcalled, ?_⟩
  rw [hhistory, hrunning]
  rcases hcall with ⟨hnone, hrun, hcurrent⟩ | ⟨answer, m, hsome, hrun, hreturned⟩
  · exact Or.inl ⟨hnone, hrun, hcurrent.append fun happening hmem => absurd rfl (hothers _ hmem)⟩
  · exact Or.inr ⟨answer, m, hsome, hrun, hreturned.append entries⟩

omit [DecidableEq Cid] in
theorem step_action {sys : System Tid} (hidle : sys.running t = .idle) (asked : Asked) :
    ∃ begun running, begun.asked = some asked ∧ running ≠ .idle ∧
      (sys.step P (asked.action t)).history = sys.history ++ [(t, begun)] ∧
      (sys.step P (asked.action t)).running = Function.update sys.running t running := by
  cases asked with
  | put key value =>
    refine ⟨.invokePut key value, .putting key value .compressing, rfl, by simp, ?_, ?_⟩
    · simp [Asked.action, System.step, hidle]
    · simp [Asked.action, System.step, hidle]
  | get key =>
    refine ⟨.invokeGet key, .getting key .searching, rfl, by simp, ?_, ?_⟩
    · simp [Asked.action, System.step, hidle]
    · simp [Asked.action, System.step, hidle]

theorem WorkersInv.take (h : WorkersInv P options w s) (hordinary : ((w.asked c).action t).Ordinary P options)
    (hfree : s.jobs t = none) (hnone : s.called c = none) (hready : (s.connections c).server.Ready) :
    WorkersInv P options w (s.take P t c (w.request c) (w.asked c)) := by
  obtain ⟨begun, running, hasked, hrunning, hhistory, hrun⟩ := step_action (P := P) (h.idle t hfree) (w.asked c)
  obtain ⟨segs, flushed, hsys⟩ := h.engine
  have hfits : SnapshotsFit s.system ((w.asked c).action t) := by
    rintro t' key value row heq
    cases hcase : w.asked c <;> rw [hcase] at heq <;> cases heq
  have hkept : ∀ c' n, s.called c' = some n →
      Function.update s.called c (some s.system.history.length) c' = some n := by
    intro c' n hcalled
    rw [Function.update_of_ne]
    · exact hcalled
    · rintro rfl
      rw [hnone] at hcalled
      cases hcalled
  have hcalls : ∀ c' n, Function.update s.called c (some s.system.history.length) c' = some n →
      c' = c ∧ n = s.system.history.length ∨ c' ≠ c ∧ s.called c' = some n := by
    intro c' n hcalled
    exact (update_eq_cases hcalled).imp_left fun ⟨heq, hsome⟩ => ⟨heq, (Option.some.inj hsome).symm⟩
  have hjobs : ∀ t' job, Function.update s.jobs t (some { client := c, request := w.request c }) t' = some job →
      t' = t ∧ job = { client := c, request := w.request c } ∨ t' ≠ t ∧ s.jobs t' = some job ∧ job.client ≠ c := by
    intro t' job hjob
    rcases update_eq_cases hjob with ⟨heq, hsome⟩ | ⟨hne, hold⟩
    · exact Or.inl ⟨heq, (Option.some.inj hsome).symm⟩
    · refine Or.inr ⟨hne, hold, ?_⟩
      rintro rfl
      obtain ⟨n, hcalled, -⟩ := (h.jobs t' job hold).call
      rw [hnone] at hcalled
      cases hcalled
  have hbound : ∀ c' n, s.called c' = some n → n < s.system.history.length := by
    intro c' n hcalled
    obtain ⟨-, t', begun', hbegun, -⟩ := h.begun c' n hcalled
    exact (List.getElem?_eq_some_iff.mp hbegun).1
  refine ⟨h.exchange, hsys.step hordinary hfits, h.puts.step hsys _, ?_, ?_, ?_, ?_, ?_, ?_, ?_, ?_, ?_⟩
  · intro t' hjob
    show (s.system.step P ((w.asked c).action t)).running t' = .idle
    rcases update_eq_cases hjob with ⟨-, hsome⟩ | ⟨hne, hold⟩
    · cases hsome
    · rw [hrun, Function.update_of_ne hne]
      exact h.idle t' hold
  · intro t' job hjob
    rcases hjobs t' job hjob with ⟨rfl, rfl⟩ | ⟨hne, hjob', -⟩
    · refine ⟨rfl, hready, s.system.history.length, Function.update_self .., Or.inl ⟨rfl, ?_, ?_⟩⟩
      · show (s.system.step P ((w.asked c).action t')).running t' ≠ .idle
        rw [hrun, Function.update_self]
        exact hrunning
      · show Current (s.system.step P ((w.asked c).action t')).history t' _ _
        rw [hhistory]
        exact Current.begin hasked
    · refine (h.jobs t' job hjob').grow rfl hhistory hkept ?_ ?_
      · show (s.system.step P ((w.asked c).action t)).running t' = _
        rw [hrun, Function.update_of_ne hne]
      · intro entry hentry
        rw [List.mem_singleton.mp hentry]
        exact Ne.symm hne
  · intro t' t'' job job' hjob hjob' heq
    rcases hjobs t' job hjob with ⟨rfl, rfl⟩ | ⟨hne, hjob, hclient⟩
    · rcases hjobs t'' job' hjob' with ⟨rfl, -⟩ | ⟨-, -, hclient'⟩
      · rfl
      · exact absurd heq.symm hclient'
    · rcases hjobs t'' job' hjob' with ⟨rfl, rfl⟩ | ⟨-, hjob', -⟩
      · exact absurd heq hclient
      · exact h.alone t' t'' job job' hjob hjob' heq
  · intro c' n hcalled
    show _ ∧ ∃ t' begun', (s.system.step P ((w.asked c).action t)).history[n]? = some (t', begun') ∧ _
    rw [hhistory]
    rcases hcalls c' n hcalled with ⟨rfl, rfl⟩ | ⟨-, hcalled⟩
    · exact ⟨((h.exchange c').buffer_eq (w.lawful c') hready).2.2, t, begun, by simp, hasked⟩
    · obtain ⟨hcreated, t', begun', hbegun, hasked'⟩ := h.begun c' n hcalled
      exact ⟨hcreated, t', begun', getElem?_append_of_some hbegun, hasked'⟩
  · intro c' n hcalled
    show (∃ t' job', Function.update s.jobs t _ t' = some job' ∧ job'.client = c') ∨
      ∃ answer m, Returned (s.system.step P ((w.asked c).action t)).history n answer m ∧ _
    rw [hhistory]
    rcases hcalls c' n hcalled with ⟨rfl, rfl⟩ | ⟨-, hcalled⟩
    · exact Or.inl ⟨t, _, Function.update_self .., rfl⟩
    · rcases h.ended c' n hcalled with ⟨t', job, hjob, hclient⟩ | ⟨answer, m, hreturned, hanswered⟩
      · refine Or.inl ⟨t', job, ?_, hclient⟩
        rw [Function.update_of_ne]
        · exact hjob
        · rintro rfl
          rw [hfree] at hjob
          cases hjob
      · exact Or.inr ⟨answer, m, hreturned.append _, hanswered⟩
  · intro c' hcalled
    change Function.update s.called c _ c' = none at hcalled
    apply h.uncalled c'
    by_contra hsome
    obtain ⟨n, hn⟩ := Option.ne_none_iff_exists'.mp hsome
    rw [hkept c' n hn] at hcalled
    cases hcalled
  · intro n t' begun' hbegun hasked'
    change (s.system.step P ((w.asked c).action t)).history[n]? = some (t', begun') at hbegun
    show ∃ c', Function.update s.called c (some s.system.history.length) c' = some n
    rw [hhistory] at hbegun
    by_cases hlt : n < s.system.history.length
    · rw [List.getElem?_append_left hlt] at hbegun
      obtain ⟨c', hc'⟩ := h.owned n t' begun' hbegun hasked'
      exact ⟨c', hkept c' n hc'⟩
    · have hlength := (List.getElem?_eq_some_iff.mp hbegun).1
      rw [List.length_append, List.length_singleton] at hlength
      have hn : n = s.system.history.length := by omega
      exact ⟨c, by rw [Function.update_self, hn]⟩
  · intro c' c'' n hcalled hcalled'
    rcases hcalls c' n hcalled with ⟨hc, hn⟩ | ⟨-, hold⟩
    · rcases hcalls c'' n hcalled' with ⟨hc', -⟩ | ⟨-, hold'⟩
      · exact hc.trans hc'.symm
      · exact absurd (hn ▸ hbound c'' n hold') (Nat.lt_irrefl _)
    · rcases hcalls c'' n hcalled' with ⟨-, hn⟩ | ⟨-, hold'⟩
      · exact absurd (hn ▸ hbound c' n hold) (Nat.lt_irrefl _)
      · exact h.injective c' c'' n hold hold'
  · refine h.log.grow rfl rfl hhistory ?_ hkept
    intro c' n hcalled
    rcases hcalls c' n hcalled with ⟨-, hn⟩ | ⟨-, hcalled⟩
    · exact Or.inr hn
    · exact Or.inl hcalled

omit [DecidableEq Cid] in
theorem advance_cases {sys : System Tid} (hbusy : sys.running t ≠ .idle)
    (hfree : ((sys.running t).wantsLock && sys.writer.isSome) = false) :
    ∃ running entries, (sys.advance P t).running = Function.update sys.running t running ∧
      (sys.advance P t).history = sys.history ++ entries.map (fun entry => (t, entry)) ∧
      (running ≠ .idle ∧ (∀ entry ∈ entries, entry.inserts = true) ∨
        running = .idle ∧ ∃ entry answer, entries = [entry] ∧ entry.answer = some answer) := by
  obtain ⟨turn, hturn, hcases⟩ := turn_cases P sys.store hbusy
  refine ⟨turn.running, turn.entries, ?_, ?_, hcases⟩
  · unfold System.advance
    rw [hfree, hturn]
    rfl
  · unfold System.advance
    rw [hfree, hturn]
    rfl

omit [DecidableEq Cid] in
theorem JobFacts.turn {job : Job Cid} (h : JobFacts w s t job) (hanswer : job.answer = none)
    (hfree : ((s.system.running t).wantsLock && s.system.writer.isSome) = false) :
    JobFacts w (s.turn P t job) t { job with
      answer :=
        ((s.system.advance P t).history.drop s.system.history.length).findSome? fun entry => entry.2.answer } := by
  obtain ⟨hrequest, hready, n, hcalled, hcall⟩ := h
  obtain ⟨-, hbusy, hcurrent⟩ : job.answer = none ∧ s.system.running t ≠ .idle ∧
      Current s.system.history t n (w.asked job.client) := by
    rcases hcall with hcall | ⟨answer, m, hsome, -⟩
    · exact hcall
    · rw [hanswer] at hsome
      cases hsome
  obtain ⟨running, entries, hrun, hhistory, hcases⟩ := advance_cases (P := P) hbusy hfree
  refine ⟨hrequest, hready, n, hcalled, ?_⟩
  show ((s.system.advance P t).history.drop s.system.history.length).findSome? _ = none ∧
      (s.system.advance P t).running t ≠ .idle ∧ Current (s.system.advance P t).history t n _ ∨
    ∃ answer m, ((s.system.advance P t).history.drop s.system.history.length).findSome? _ = some answer ∧
      (s.system.advance P t).running t = .idle ∧ Returned (s.system.advance P t).history n answer m
  rw [hhistory, hrun, List.drop_left, Function.update_self]
  rcases hcases with ⟨hrunning, hinserts⟩ | ⟨hidle, entry, answer, rfl, hentry⟩
  · refine Or.inl ⟨?_, hrunning, hcurrent.append ?_⟩
    · rw [List.findSome?_eq_none_iff]
      intro x hx
      obtain ⟨entry, hentry, rfl⟩ := List.mem_map.mp hx
      have hinsert := hinserts entry hentry
      cases entry <;> first | rfl | cases hinsert
    · intro happening hmem
      obtain ⟨entry, hentry, heq⟩ := List.mem_map.mp hmem
      cases heq
      exact hinserts happening hentry
  · exact Or.inr ⟨answer, s.system.history.length, by simp [hentry], hidle, hcurrent.returned hentry⟩

omit [DecidableEq Cid] in
theorem WorkersInv.turn (h : WorkersInv P options w s) {job : Job Cid} (hjob : s.jobs t = some job)
    (hanswer : job.answer = none) (hfree : ((s.system.running t).wantsLock && s.system.writer.isSome) = false)
    (hfits : SnapshotsFit s.system (.advance t)) : WorkersInv P options w (s.turn P t job) := by
  obtain ⟨segs, flushed, hsys⟩ := h.engine
  have hbusy : s.system.running t ≠ .idle := by
    obtain ⟨-, -, n, -, hcall⟩ := h.jobs t job hjob
    rcases hcall with ⟨-, hbusy, -⟩ | ⟨answer, m, hsome, -⟩
    · exact hbusy
    · rw [hanswer] at hsome
      cases hsome
  obtain ⟨running, entries, hrun, hhistory, hcases⟩ := advance_cases (P := P) hbusy hfree
  have hjobs : ∀ t' job', (s.turn P t job).jobs t' = some job' →
      t' = t ∧ job'.client = job.client ∨ t' ≠ t ∧ s.jobs t' = some job' := by
    intro t' job' hjob'
    refine (update_eq_cases hjob').imp_left ?_
    rintro ⟨heq, ⟨⟩⟩
    exact ⟨heq, rfl⟩
  refine ⟨h.exchange, hsys.advance t hfits, h.puts.step hsys (.advance t), ?_, ?_, ?_, ?_, ?_, h.uncalled, ?_,
    h.injective, ?_⟩
  · intro t' hnone
    show (s.system.advance P t).running t' = .idle
    rcases update_eq_cases hnone with ⟨-, hsome⟩ | ⟨hne, hold⟩
    · cases hsome
    · rw [hrun, Function.update_of_ne hne]
      exact h.idle t' hold
  · intro t' job' hjob'
    rcases update_eq_cases hjob' with ⟨rfl, hsome⟩ | ⟨hne, hold⟩
    · cases hsome
      exact (h.jobs t' job hjob).turn hanswer hfree
    · refine (h.jobs t' job' hold).grow rfl hhistory (fun c n hcalled => hcalled) ?_ ?_
      · show (s.system.advance P t).running t' = _
        rw [hrun, Function.update_of_ne hne]
      · intro x hx
        obtain ⟨entry, -, rfl⟩ := List.mem_map.mp hx
        exact Ne.symm hne
  · intro t' t'' job' job'' hjob' hjob'' heq
    rcases hjobs t' job' hjob' with ⟨rfl, hclient⟩ | ⟨-, hold⟩
    · rcases hjobs t'' job'' hjob'' with ⟨rfl, -⟩ | ⟨-, hold'⟩
      · rfl
      · exact h.alone t' t'' job job'' hjob hold' (hclient.symm.trans heq)
    · rcases hjobs t'' job'' hjob'' with ⟨rfl, hclient⟩ | ⟨-, hold'⟩
      · exact h.alone t' t'' job' job hold hjob (heq.trans hclient)
      · exact h.alone t' t'' job' job'' hold hold' heq
  · intro c n hcalled
    obtain ⟨hcreated, t', begun, hbegun, hasked⟩ := h.begun c n hcalled
    refine ⟨hcreated, t', begun, ?_, hasked⟩
    show (s.system.advance P t).history[n]? = _
    rw [hhistory]
    exact getElem?_append_of_some hbegun
  · intro c n hcalled
    rcases h.ended c n hcalled with ⟨t', job', hjob', hclient⟩ | ⟨answer, m, hreturned, hanswered⟩
    · refine Or.inl ?_
      show ∃ t' job', Function.update s.jobs t _ t' = some job' ∧ _
      by_cases hne : t' = t
      · subst hne
        rw [hjob] at hjob'
        cases hjob'
        exact ⟨t', _, Function.update_self .., hclient⟩
      · exact ⟨t', job', by rw [Function.update_of_ne hne]; exact hjob', hclient⟩
    · refine Or.inr ⟨answer, m, ?_, hanswered⟩
      show Returned (s.system.advance P t).history n answer m
      rw [hhistory]
      exact hreturned.append _
  · intro n t' begun hbegun hasked
    change (s.system.advance P t).history[n]? = some (t', begun) at hbegun
    rw [hhistory] at hbegun
    by_cases hlt : n < s.system.history.length
    · rw [List.getElem?_append_left hlt] at hbegun
      exact h.owned n t' begun hbegun hasked
    · -- a turn begins no call
      rw [List.getElem?_append_right (by omega)] at hbegun
      obtain ⟨entry, hentry, heq⟩ := List.mem_map.mp (List.mem_of_getElem? hbegun)
      cases heq
      rcases hcases with ⟨-, hinserts⟩ | ⟨-, entry, answer, rfl, hanswered⟩
      · have hinsert := hinserts begun hentry
        rw [Happening.inserts_of_asked hasked] at hinsert
        cases hinsert
      · rw [List.mem_singleton.mp hentry] at hasked
        cases entry <;> first | exact absurd rfl hasked | cases hanswered
  · exact h.log.grow rfl rfl hhistory (fun c n hcalled => Or.inl hcalled) fun c n hcalled => hcalled

end turns

/-! ### Answers -/

theorem acceptPut_isException {P : Platform} {options : Options} (hhasher : createHasher P options.hashType ≠ none)
    {value : ByteString} {fault : Fault} (h : acceptPut P options value = .error fault) : fault.isException = true := by
  have hbytes : ∀ bytes, ByteString.ofBytes bytes = .error fault → fault.isException = true := by
    intro bytes hbytes
    unfold ByteString.ofBytes at hbytes
    split_ifs at hbytes
    cases hbytes
    rfl
  unfold acceptPut at h
  obtain ⟨hasher, hhasher⟩ := Option.ne_none_iff_exists'.mp hhasher
  rw [hhasher] at h
  cases hcompress : (createCompressor P options.compressionType).compress value with
  | ok compressed =>
    rw [hcompress] at h
    cases h
  | error fault' =>
    rw [hcompress] at h
    cases h
    unfold createCompressor at hcompress
    split_ifs at hcompress
    · cases hcompress
    · exact hbytes _ hcompress
    · change LZ4CompressionAdapter.compress P value = _ at hcompress
      unfold LZ4CompressionAdapter.compress at hcompress
      dsimp only at hcompress
      split_ifs at hcompress
      · cases hcompress
        rfl
      · cases hcompress
        rfl
      · exact hbytes _ hcompress
    · cases hcompress

theorem exists_insert_of_latestPut {history : List (Tid × OmxDb.Happening)} {key : Key} {value : ByteString}
    (h : latestPut history key = some value) : ∃ t, (t, .insert key value) ∈ history := by
  unfold latestPut latest at h
  obtain ⟨⟨t, happening⟩, hmem, hentry⟩ := List.exists_of_findSome?_eq_some h
  refine ⟨t, ?_⟩
  cases happening with
  | insert key' value' =>
    unfold insertion at hentry
    dsimp only at hentry
    split_ifs at hentry with hkey
    cases hentry
    cases hkey
    exact List.mem_reverse.mp hmem
  | _ => cases hentry

section answers

variable [DecidableEq Tid] [DecidableEq Cid] {P : Platform} {options : Options} {w : Demand Cid}
  {s s' : Workers Tid Cid} {t : Tid} {c : Cid}

omit [DecidableEq Tid] [DecidableEq Cid] in
theorem WorkersInv.size_lt (h : WorkersInv P options w s) {key : Key} {value : ByteString}
    (hmem : (t, .insert key value) ∈ s.system.history) : 13 + value.size < 2 ^ 32 := by
  obtain ⟨p, hp⟩ := List.getElem?_of_mem hmem
  obtain ⟨-, call, t', key', value', hbegun, -, hinsert, -⟩ := h.puts.insertedAt hp
  rw [hp] at hinsert
  cases hinsert
  obtain ⟨c, hcalled⟩ := h.owned call _ _ hbegun (Option.some_ne_none _)
  obtain ⟨-, t'', begun, hbegun', hasked⟩ := h.begun c call hcalled
  rw [hbegun] at hbegun'
  cases hbegun'
  have hasks := w.asks c
  have hlawful := (w.request c).lawful_iff.mp (w.lawful c)
  have hlt := (w.request c).contentLength.toNat_lt
  have hvalue : value = (w.request c).value := by
    unfold Request.asked at hasks
    rw [← Option.some.inj hasked] at hasks
    split_ifs at hasks
    · cases hasks
    · exact (Asked.put.inj (Option.some.inj hasks)).2.symm
  rw [hvalue]
  omega

omit [DecidableEq Tid] [DecidableEq Cid] in
/-- Every call that returned has a response, and its size fits. -/
theorem WorkersInv.short (h : WorkersInv P options w s) (hhasher : createHasher P options.hashType ≠ none)
    {n m : Nat} {answer : Answer} (hreturned : Returned s.system.history n answer m) : Short answer.response := by
  obtain ⟨segs, flushed, hsys⟩ := h.engine
  obtain ⟨t, begun, happening, -, -, -, hm, hanswer, -⟩ := hreturned
  obtain ⟨call, -, houtcome⟩ := h.puts.outcome hsys hm hanswer
  cases houtcome with
  | inserted p hat => exact ⟨_, rfl, by decide⟩
  | failed t' key value fault hbegun hrefused =>
    refine ⟨Response.make .UnknownError ByteString.empty, ?_, by decide⟩
    show caught fault = _
    unfold caught
    rw [if_pos (acceptPut_isException hhasher hrefused)]
  | answered t' key k hbegun hlower hupper =>
    cases hlatest : mapAt s.system.history k key with
    | none => exact ⟨_, rfl, by decide⟩
    | some value =>
      refine ⟨_, rfl, ?_⟩
      obtain ⟨t'', hmem⟩ := exists_insert_of_latestPut hlatest
      have hsize := h.size_lt (List.mem_of_mem_take hmem)
      show 5 + value.size < 2 ^ 32
      omega

/-! ### Runs -/

/-- The puts of the clients are ordinary. -/
def Demand.Ordinary (P : Platform) (options : Options) (w : Demand Cid) : Prop :=
  ∀ c key value, w.asked c = .put key value →
    key.id ≠ npos ∧ (createCompressor P options.compressionType).ReadsBack value

/-- A snapshot that the turn of a thread will lead to fits. -/
def TurnsFit (s : Workers Tid Cid) (event : WorkerEvent Tid Cid) : Prop :=
  ∀ t, event = .advance t → SnapshotsFit s.system (.advance t)

omit [DecidableEq Tid] [DecidableEq Cid] in
theorem Demand.Ordinary.action (h : w.Ordinary P options) (c : Cid) (t : Tid) :
    ((w.asked c).action t).Ordinary P options := by
  cases hcase : w.asked c with
  | put key value => exact h c key value hcase
  | get key => trivial

omit [DecidableEq Tid] [DecidableEq Cid] in
theorem WorkersInv.parsed (h : WorkersInv P options w s) (hready : (s.connections c).server.Ready) :
    (Request.make .Get ⟨0⟩ ByteString.empty).deserialize (s.connections c).server.reader.buffer
      = .ok (w.request c) := by
  rw [((h.exchange c).buffer_eq (w.lawful c) hready).1, deserialize_request (w.lawful c)]

theorem WorkersInv.step (h : WorkersInv P options w s) (hordinary : w.Ordinary P options)
    {event : WorkerEvent Tid Cid} (hfits : TurnsFit s event) (hstep : s.step P w event = some s') :
    WorkersInv P options w s' := by
  cases Workers.step_cases hstep with
  | connection hserve hserver hnetwork => exact h.connection hserve (fun hof => (hserver hof).2) hnetwork
  | unparsed halive hready hparse =>
    rw [h.parsed hready] at hparse
    cases hparse
  | @take t c request asked hfree hnone hready hparse hasked =>
    cases (h.parsed hready).symm.trans hparse
    cases (w.asks c).symm.trans hasked
    exact h.take (hordinary.action c t) hfree hnone hready
  | @advance t job hjob hanswer hlock => exact h.turn hjob hanswer hlock (hfits t rfl)
  | respond hjob hanswer halive => exact h.finish hjob hanswer

theorem WorkersInv.alive (h : WorkersInv P options w s) (hhasher : createHasher P options.hashType ≠ none)
    (halive : s.alive = true) {event : WorkerEvent Tid Cid} (hstep : s.step P w event = some s') :
    s'.alive = true := by
  cases Workers.step_cases hstep with
  | connection hserve hserver hnetwork => exact halive
  | unparsed _ hready hparse =>
    rw [h.parsed hready] at hparse
    cases hparse
  | take hfree hnone hready hparse hasked => exact halive
  | advance hjob hanswer hlock => exact halive
  | @respond t job answer hjob hanswer _ =>
    obtain ⟨-, -, n, -, hcall⟩ := h.jobs t job hjob
    rcases hcall with ⟨hnone, -⟩ | ⟨answer', m, hsome, -, hreturned⟩
    · rw [hanswer] at hnone
      cases hnone
    · rw [hanswer] at hsome
      cases hsome
      obtain ⟨response, hresponse, -⟩ := h.short hhasher hreturned
      exact decide_eq_true ((Network.respond_writing _ _ _).mpr ⟨response, hresponse⟩)

end answers

section runs

variable [DecidableEq Tid] [DecidableEq Cid] {P : Platform} {options : Options} {w : Demand Cid}
  {s s' : Workers Tid Cid}

omit [DecidableEq Tid] [DecidableEq Cid] in
theorem workersInv_initial {disk : Disk} {e : StorageEngine}
    (hopen : StorageEngine.open P {} options {} {} = (disk, .ok e)) :
    WorkersInv P options w ({ system := { store := ⟨disk, e⟩ } } : Workers Tid Cid) where
  exchange c := inv_initial (w.request c)
  engine := ⟨[], fun _ => none, systemInv_initial hopen⟩
  puts := putsInv_initial _
  idle _ _ := rfl
  jobs t job hjob := by cases hjob
  alone t t' job job' hjob := by cases hjob
  begun c n hcalled := by cases hcalled
  ended c n hcalled := by cases hcalled
  uncalled _ _ := rfl
  owned n t begun hbegun := by simp at hbegun
  injective c c' n hcalled := by cases hcalled
  log := {
    invoked := fun c => iff_of_false (by simp) (by simp)
    early := fun c k n hentry => absurd hentry List.not_mem_nil
    late := fun c response k hentry => absurd hentry List.not_mem_nil
    sorted := List.Pairwise.nil
    bounded := fun entry hentry => absurd hentry List.not_mem_nil }

theorem WorkersInv.run (h : WorkersInv P options w s) (hordinary : w.Ordinary P options)
    {events : List (WorkerEvent Tid Cid)} (hfits : Runs.Meets (Workers.next P w) TurnsFit s events) :
    WorkersInv P options w (Runs.run (Workers.next P w) s events) := by
  refine Runs.run_inv (WorkersInv P options w) ?_ hfits h
  intro s event hinv hfits
  unfold Workers.next
  cases hstep : s.step P w event with
  | none => exact hinv
  | some s' => exact hinv.step hordinary hfits hstep

/-! ### The clients' calls -/

/-- A client calls where it is run, and its call returns where its promise gets a response. -/
def demandCalls (w : Demand Cid) (log : List (Cid × Happening)) : Calls Cid Asked (Except Fault Response) where
  invokedAt c asked m := asked = w.asked c ∧ log[m]? = some (c, .invoke)
  returnedAt c result m := ∃ response, result = .ok response ∧ log[m]? = some (c, .answer response)

/-- The log without the lengths of the history. -/
def Workers.clientLog (s : Workers Tid Cid) : List (Cid × Happening) := s.log.map Prod.fst

/-- A map whose puts can fail, as clients see it. -/
def mapService (P : Platform) (options : Options) (contents : Key → Option ByteString) (asked : Asked) :
    (Key → Option ByteString) × Except Fault Response :=
  ((mapObject P options contents asked).1, (mapObject P options contents asked).2.response)

omit [DecidableEq Tid] [DecidableEq Cid] in
theorem LogFacts.stamps (h : LogFacts s) {m m' : Nat} {entry entry' : Cid × Happening} (hlt : m < m')
    (hm : s.clientLog[m]? = some entry) (hm' : s.clientLog[m']? = some entry') :
    ∃ k k', (entry, k) ∈ s.log ∧ (entry', k') ∈ s.log ∧ k ≤ k' := by
  unfold Workers.clientLog at hm hm'
  rw [List.getElem?_map, Option.map_eq_some_iff] at hm hm'
  obtain ⟨x, hx, rfl⟩ := hm
  obtain ⟨x', hx', rfl⟩ := hm'
  refine ⟨x.2, x'.2, List.mem_of_getElem? hx, List.mem_of_getElem? hx', ?_⟩
  obtain ⟨hlength, rfl⟩ := List.getElem?_eq_some_iff.mp hx
  obtain ⟨hlength', rfl⟩ := List.getElem?_eq_some_iff.mp hx'
  have hsorted := List.pairwise_iff_getElem.mp h.sorted m m' (by simpa using hlength) (by simpa using hlength') hlt
  simpa using hsorted

omit [DecidableEq Tid] [DecidableEq Cid] in
/-- The calls of the history, renamed to the clients they are made for. -/
theorem WorkersInv.linearizes (h : WorkersInv P options w s) (hhasher : createHasher P options.hashType ≠ none) :
    ∃ order, Linearizes (mapService P options) (demandCalls w s.clientLog) (mapAt s.system.history 0)
      (mapAt s.system.history s.system.history.length) order := by
  classical
  obtain ⟨segs, flushed, hsys⟩ := h.engine
  obtain ⟨points⟩ := h.puts.exists_points hsys
  have hlinearizes := points.linearizes
  have howned : ∀ n ∈ points.answered.map Prod.fst, ∃ c, s.called c = some n := by
    intro n hn
    obtain ⟨⟨n', asked, answer⟩, hmem, rfl⟩ := List.mem_map.mp hn
    obtain ⟨m, rfl, t, begun, hbegun, hasked⟩ := hlinearizes.invoked n' asked answer hmem
    exact h.owned m t begun hbegun (by rw [hasked]; exact Option.some_ne_none _)
  rcases isEmpty_or_nonempty Cid with hempty | hnonempty
  · -- nobody calls
    have hnil : points.answered = [] := by
      cases horder : points.answered with
      | nil => rfl
      | cons x rest =>
        obtain ⟨c, -⟩ := howned x.1 (by rw [horder]; exact List.mem_cons_self ..)
        exact hempty.elim c
    rw [hnil] at hlinearizes
    exact ⟨[], List.nodup_nil, hlinearizes.legal, fun c => hempty.elim c, fun c => hempty.elim c,
      fun c => hempty.elim c⟩
  have hchoice : ∀ n, ∃ c, (∃ c', s.called c' = some n) → s.called c = some n := by
    intro n
    by_cases hcalled : ∃ c', s.called c' = some n
    · obtain ⟨c, hc⟩ := hcalled
      exact ⟨c, fun _ => hc⟩
    · exact ⟨Classical.arbitrary Cid, fun hc => absurd hc hcalled⟩
  choose owner howner using hchoice
  refine ⟨_, hlinearizes.within owner Answer.response ?_ ?_ ?_ ?_⟩
  · intro n hn n' hn' heq
    have hcalled := howner n (howned n hn)
    rw [heq, howner n' (howned n' hn')] at hcalled
    exact (Option.some.inj hcalled).symm
  · rintro n asked m hn ⟨rfl, t, begun, hbegun, hasked⟩
    obtain ⟨hcreated, t', begun', hbegun', hasked'⟩ := h.begun _ m (howner m (howned m hn))
    obtain ⟨k, hk⟩ := (h.log.invoked (owner m)).mpr hcreated
    obtain ⟨m', hm'⟩ := List.getElem?_of_mem hk
    rw [hbegun] at hbegun'
    cases hbegun'
    rw [hasked] at hasked'
    refine ⟨m', Option.some.inj hasked', ?_⟩
    unfold Workers.clientLog
    rw [List.getElem?_map, hm']
    rfl
  · rintro c result m ⟨response, rfl, hm⟩
    unfold Workers.clientLog at hm
    rw [List.getElem?_map, Option.map_eq_some_iff] at hm
    obtain ⟨⟨entry, k⟩, hk, rfl⟩ := hm
    obtain ⟨n, answer, m', response', hcalled, hreturned, -, hresponse, hequal⟩ :=
      h.log.late c response k (List.mem_of_getElem? hk)
    obtain ⟨response'', hresponse', hsize⟩ := h.short hhasher hreturned
    rw [hresponse] at hresponse'
    cases hresponse'
    refine ⟨n, answer, m', h.injective _ c n (howner n ⟨c, hcalled⟩) hcalled, hreturned, ?_⟩
    rw [hresponse, hequal hsize]
  · rintro n hn n' hn' result m asked m' ⟨response, rfl, hm⟩ ⟨-, hm'⟩ hlt
    -- the answer was after the return, and the client was run before its call
    obtain ⟨k, k', hk, hk', hle⟩ := h.log.stamps hlt hm hm'
    obtain ⟨n₁, answer, m₁, -, hcalled, hreturned, hbefore, -⟩ := h.log.late _ response k hk
    rw [howner n (howned n hn)] at hcalled
    cases hcalled
    have hafter := h.log.early _ k' n' hk' (howner n' (howned n' hn'))
    obtain ⟨-, t, begun, hbegun, hasked⟩ := h.begun _ n' (howner n' (howned n' hn'))
    exact ⟨answer, m₁, _, n', hreturned, ⟨rfl, t, begun, hbegun, hasked⟩, by omega⟩

/-- With any number of worker threads on a store opened on an empty directory, the puts and gets of any number of
clients are linearizable as those of a map, if puts are ordinary and snapshots fit. Where no put holds the lock, the
store answers every key as the map does at the end. -/
theorem workers_linearizable (P : Platform) (options : Options) (disk : Disk) (e : StorageEngine)
    (hopen : StorageEngine.open P {} options {} {} = (disk, .ok e))
    (hhasher : createHasher P options.hashType ≠ none) (w : Demand Cid) (hordinary : w.Ordinary P options)
    (events : List (WorkerEvent Tid Cid))
    (hfits : Runs.Meets (Workers.next P w) TurnsFit { system := { store := ⟨disk, e⟩ } } events) :
    let s := Runs.run (Workers.next P w) { system := { store := ⟨disk, e⟩ } } events
    ∃ contents order,
      Linearizes (mapService P options) (demandCalls w s.clientLog) (fun _ => none) contents order ∧
      (s.system.writer = none → ∀ key, StorageEngine.get P s.system.store key = .ok (contents key)) := by
  intro s
  have hinv : WorkersInv P options w s := (workersInv_initial hopen).run hordinary hfits
  obtain ⟨order, hlinearizes⟩ := hinv.linearizes hhasher
  obtain ⟨segs, flushed, hsys⟩ := hinv.engine
  refine ⟨mapAt s.system.history s.system.history.length, order, hlinearizes, ?_⟩
  intro hfree key
  rw [hsys.get_eq hfree key]
  unfold mapAt
  rw [List.take_length]

end runs

/-! ### Two threads -/

/-- One client puts a key, the other gets it. -/
def putAndGetDemand : Demand Bool where
  request := putAndGet
  asked
    | false => .put ⟨1⟩ (.single 97)
    | true => .get ⟨1⟩
  lawful := lawful_putAndGet
  asks
    | false => rfl
    | true => rfl

theorem ordinary_putAndGetDemand : putAndGetDemand.Ordinary plainPlatform plainOptions := by
  intro c key value hasked
  cases c with
  | false =>
    cases hasked
    exact ⟨by decide, readsBack_noCompression _⟩
  | true => cases hasked

/-- Steps of one connection. -/
def connectionSteps (c : Bool) (events : List Event) : List (WorkerEvent Bool Bool) := events.map (.connection c)

/-- A thread gets while another puts: its first look is before the insertion, the others behind the snapshot. -/
def overlapped : List (WorkerEvent Bool Bool) :=
  List.flatten [
    connectionSteps true [.run, .onResolve, .onConnect, .onSend, .accept, .deliverRequest 17, .receiveRequest 4,
      .onContentLengthReceived, .receiveRequest 13],
    [.onRequestReceived true true, .advance true],
    connectionSteps false [.run, .onResolve, .onConnect, .onSend, .accept, .deliverRequest 18, .receiveRequest 4,
      .onContentLengthReceived, .receiveRequest 14],
    [.onRequestReceived false false],
    List.replicate 18 (.advance false),
    List.replicate 11 (.advance true),
    [.respond false, .respond true],
    connectionSteps true [.onResponseSent, .deliverResponse 10, .receiveResponse 4, .onContentLengthReceive,
      .receiveResponse 6, .onReceive],
    connectionSteps false [.onResponseSent, .deliverResponse 9, .receiveResponse 4, .onContentLengthReceive,
      .receiveResponse 5, .onReceive]]

/-- A turn of a thread inserts a row only while the next segment is small. -/
def turnIsSmall (s : Workers Bool Bool) : WorkerEvent Bool Bool → Bool
  | .advance t => insertsSmall s.system (.advance t)
  | _ => true

theorem turnsFit_overlapped :
    Runs.Meets (Workers.next plainPlatform putAndGetDemand) TurnsFit
      { system := { store := ⟨freshSession.store.disk, freshSession.store.engine⟩ } } overlapped := by
  have hsmall : Runs.Meets (Workers.next plainPlatform putAndGetDemand) (fun s event => turnIsSmall s event = true)
      { system := { store := ⟨freshSession.store.disk, freshSession.store.engine⟩ } } overlapped := by
    decide +kernel
  apply hsmall.mono
  rintro s event hturn t rfl
  exact snapshotsFit_of_small hturn

/-- The get, which began first, has the value that was put. -/
theorem workers_linearizable_overlapped :
    let s := Runs.run (Workers.next plainPlatform putAndGetDemand)
      { system := { store := ⟨freshSession.store.disk, freshSession.store.engine⟩ } } overlapped
    (true, Happening.answer (Response.make .Ok (.single 97))) ∈ s.clientLog ∧
      ∃ contents order,
        Linearizes (mapService plainPlatform plainOptions) (demandCalls putAndGetDemand s.clientLog) (fun _ => none)
          contents order ∧
        (s.system.writer = none → ∀ key, StorageEngine.get plainPlatform s.system.store key = .ok (contents key)) :=
  ⟨by decide +kernel,
    workers_linearizable plainPlatform plainOptions freshSession.store.disk freshSession.store.engine
      open_freshSession (by decide) putAndGetDemand ordinary_putAndGetDemand overlapped turnsFit_overlapped⟩

end Networking

end OmxDb
