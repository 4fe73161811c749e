import Mathlib.Data.List.Nodup
import Mathlib.Data.List.Range

/-!
# Linearizable histories

An object takes a state and an operation to a state and a result. The calls of a history are invoked and return at
moments, which are numbers. A list of calls with their results linearizes the history if the object gives these results
for the operations one after the other, no call is in the list that was not invoked, every call that has returned is,
and a call that returned before another was invoked comes before it (`Linearizes`).

Often every call has one point between its invocation and its return at which it takes effect: it answers from the state
of that moment, or it is the only call that takes that state to the next one. Such points give a linearization
(`Points.linearizes`). Calls that are made within the calls of another history, one in each, linearize that history as
well (`Linearizes.within`).
-/

namespace Linearization

variable {σ ι ω ρ : Type*}

/-- The calls of a history: with which operations and when they were invoked, and when and with which results they
returned. -/
structure Calls (ι ω ρ : Type*) where
  invokedAt : ι → ω → Nat → Prop
  returnedAt : ι → ρ → Nat → Prop

/-! ### Sequential runs -/

/-- The object answers the operations with these results, one after the other, and ends in that state. -/
def Legal (object : σ → ω → σ × ρ) : σ → List (ω × ρ) → σ → Prop
  | first, [], last => first = last
  | first, (operation, result) :: rest, last =>
    (object first operation).2 = result ∧ Legal object (object first operation).1 rest last

section legal

variable {object : σ → ω → σ × ρ} {first middle last : σ}

theorem Legal.append {left right : List (ω × ρ)} (hleft : Legal object first left middle)
    (hright : Legal object middle right last) : Legal object first (left ++ right) last := by
  induction left generalizing first with
  | nil =>
    cases hleft
    exact hright
  | cons answered left ih => exact ⟨hleft.1, ih hleft.2⟩

theorem Legal.of_reads {answered : List (ω × ρ)}
    (h : ∀ x ∈ answered, object first x.1 = (first, x.2)) : Legal object first answered first := by
  induction answered with
  | nil => rfl
  | cons x answered ih =>
    have hx := h x (List.mem_cons_self ..)
    refine ⟨by rw [hx], ?_⟩
    rw [hx]
    exact ih fun y hy => h y (List.mem_cons_of_mem x hy)

theorem Legal.single {operation : ω} {result : ρ} (h : object first operation = (last, result)) :
    Legal object first [(operation, result)] last := by
  refine ⟨by rw [h], ?_⟩
  rw [h]
  rfl

theorem Legal.flatMap {state : Nat → σ} {block : Nat → List (ω × ρ)} {n : Nat}
    (h : ∀ k < n, Legal object (state k) (block k) (state (k + 1))) :
    Legal object (state 0) ((List.range n).flatMap block) (state n) := by
  induction n with
  | zero => rfl
  | succ n ih =>
    rw [List.range_succ, List.flatMap_append, List.flatMap_singleton]
    exact (ih fun k hk => h k (Nat.lt_succ_of_lt hk)).append (h n (Nat.lt_succ_self n))

end legal

/-! ### Linearizations -/

/-- `order` is what the calls were one after the other, with their results, and ends in the state `last`. -/
structure Linearizes (object : σ → ω → σ × ρ) (calls : Calls ι ω ρ) (first last : σ) (order : List (ι × ω × ρ)) :
    Prop where
  unique : (order.map Prod.fst).Nodup
  legal : Legal object first (order.map Prod.snd) last
  invoked : ∀ call operation result, (call, operation, result) ∈ order → ∃ m, calls.invokedAt call operation m
  returned : ∀ call result m, calls.returnedAt call result m → ∃ operation, (call, operation, result) ∈ order
  realTime : ∀ call result m call' operation' m', calls.returnedAt call result m →
    calls.invokedAt call' operation' m' → m < m' → call' ∈ order.map Prod.fst →
    [call, call'].Sublist (order.map Prod.fst)

section within

variable {κ ρ' : Type*} {object : σ → ω → σ × ρ} {inner : Calls ι ω ρ} {outer : Calls κ ω ρ'} {first last : σ}
  {order : List (ι × ω × ρ)}

theorem Legal.map_results (result' : ρ → ρ') {answered : List (ω × ρ)} (h : Legal object first answered last) :
    Legal (fun s operation => ((object s operation).1, result' (object s operation).2)) first
      (answered.map fun x => (x.1, result' x.2)) last := by
  induction answered generalizing first with
  | nil => exact h
  | cons x answered ih => exact ⟨congrArg result' h.1, ih h.2⟩

/-- Calls that are made within other calls, one each, linearize these as well. -/
theorem Linearizes.within (h : Linearizes object inner first last order) (owner : ι → κ) (result' : ρ → ρ')
    (hinjective : ∀ call ∈ order.map Prod.fst, ∀ call' ∈ order.map Prod.fst, owner call = owner call' → call = call')
    (hinvoked : ∀ call operation m, call ∈ order.map Prod.fst → inner.invokedAt call operation m →
      ∃ m', outer.invokedAt (owner call) operation m')
    (hreturned : ∀ caller result m, outer.returnedAt caller result m →
      ∃ call answer m', owner call = caller ∧ inner.returnedAt call answer m' ∧ result' answer = result)
    (hwithin : ∀ call ∈ order.map Prod.fst, ∀ call' ∈ order.map Prod.fst, ∀ result m operation m',
      outer.returnedAt (owner call) result m → outer.invokedAt (owner call') operation m' → m < m' →
        ∃ answer k operation' k', inner.returnedAt call answer k ∧ inner.invokedAt call' operation' k' ∧ k < k') :
    Linearizes (fun s operation => ((object s operation).1, result' (object s operation).2)) outer first last
      (order.map fun x => (owner x.1, x.2.1, result' x.2.2)) := by
  have hfst : (order.map fun x => (owner x.1, x.2.1, result' x.2.2)).map Prod.fst
      = (order.map Prod.fst).map owner := by
    rw [List.map_map, List.map_map]
    rfl
  refine ⟨?_, ?_, ?_, ?_, ?_⟩
  · rw [hfst]
    exact h.unique.map_on hinjective
  · have hlegal := h.legal.map_results result'
    rw [List.map_map] at hlegal ⊢
    exact hlegal
  · intro caller operation result hmem
    obtain ⟨⟨call, operation', answer⟩, hcall, heq⟩ := List.mem_map.mp hmem
    cases heq
    obtain ⟨m, hm⟩ := h.invoked _ _ _ hcall
    exact hinvoked _ _ m (List.mem_map.mpr ⟨_, hcall, rfl⟩) hm
  · intro caller result m hcaller
    obtain ⟨call, answer, m', rfl, hcall, rfl⟩ := hreturned caller result m hcaller
    obtain ⟨operation, hmem⟩ := h.returned call answer m' hcall
    exact ⟨operation, List.mem_map.mpr ⟨_, hmem, rfl⟩⟩
  · intro caller result m caller' operation' m' hcaller hcaller' hlt hmem
    rw [hfst] at hmem ⊢
    obtain ⟨call', hcall', rfl⟩ := List.mem_map.mp hmem
    obtain ⟨call, answer, k, rfl, hcall, rfl⟩ := hreturned caller result m hcaller
    obtain ⟨operation, hin⟩ := h.returned call answer k hcall
    have hcall'' : call ∈ order.map Prod.fst := List.mem_map.mpr ⟨_, hin, rfl⟩
    obtain ⟨answer', k', operation'', k'', hreturn, hinvoke, hbefore⟩ :=
      hwithin call hcall'' call' hcall' _ m operation' m' hcaller hcaller' hlt
    have hsublist := h.realTime call answer' k' call' operation'' k'' hreturn hinvoke hbefore hcall'
    exact hsublist.map owner

end within

/-- Where each call takes effect. -/
structure Points (object : σ → ω → σ × ρ) (calls : Calls ι ω ρ) (state : Nat → σ) (moments : Nat) where
  included : List ι
  operation : ι → ω
  answer : ι → ρ
  point : ι → Nat
  writes : ι → Bool
  unique : included.Nodup
  point_lt : ∀ call ∈ included, point call < moments
  invoked : ∀ call ∈ included, ∃ m, calls.invokedAt call (operation call) m
  behind : ∀ call ∈ included, ∀ operation m, calls.invokedAt call operation m → m ≤ point call
  returned : ∀ call result m, calls.returnedAt call result m → call ∈ included ∧ answer call = result ∧ point call ≤ m
  reads_state : ∀ call ∈ included, writes call = false →
    object (state (point call)) (operation call) = (state (point call), answer call)
  writes_state : ∀ call ∈ included, writes call = true →
    object (state (point call)) (operation call) = (state (point call + 1), answer call)
  alone : ∀ call ∈ included, ∀ call' ∈ included, writes call = true → writes call' = true →
    point call = point call' → call = call'
  still : ∀ k < moments, (∀ call ∈ included, point call = k → writes call = false) → state (k + 1) = state k

namespace Points

variable {object : σ → ω → σ × ρ} {calls : Calls ι ω ρ} {state : Nat → σ} {moments : Nat}
  (p : Points object calls state moments)

/-- The calls of a moment that read, or that write. -/
def part (writing : Bool) (k : Nat) : List ι :=
  p.included.filter fun call => decide (p.point call = k) && (p.writes call == writing)

/-- The reads of a moment come before its write. -/
def block (k : Nat) : List ι := p.part false k ++ p.part true k

def order : List ι := (List.range moments).flatMap p.block

theorem mem_part {writing : Bool} {k : Nat} {call : ι} :
    call ∈ p.part writing k ↔ call ∈ p.included ∧ p.point call = k ∧ p.writes call = writing := by
  simp [part]

theorem mem_block {k : Nat} {call : ι} : call ∈ p.block k ↔ call ∈ p.included ∧ p.point call = k := by
  rw [block, List.mem_append, mem_part, mem_part]
  cases p.writes call <;> simp

theorem mem_order {call : ι} : call ∈ p.order ↔ call ∈ p.included := by
  unfold order
  simp only [List.mem_flatMap, List.mem_range, mem_block]
  constructor
  · rintro ⟨k, -, hmem, -⟩
    exact hmem
  · intro hmem
    exact ⟨p.point call, p.point_lt call hmem, hmem, rfl⟩

theorem nodup_block (k : Nat) : (p.block k).Nodup := by
  unfold block
  rw [List.nodup_append']
  refine ⟨p.unique.filter _, p.unique.filter _, ?_⟩
  intro call hread hwrite
  have hread' := (p.mem_part.mp hread).2.2
  rw [(p.mem_part.mp hwrite).2.2] at hread'
  cases hread'

theorem nodup_order : p.order.Nodup := by
  unfold order
  rw [List.nodup_flatMap]
  refine ⟨fun k _ => p.nodup_block k, List.nodup_range.imp ?_⟩
  intro k l hne call hk hl
  exact hne ((p.mem_block.mp hk).2.symm.trans (p.mem_block.mp hl).2)

theorem part_true_cases (k : Nat) : p.part true k = [] ∨ ∃ call, p.part true k = [call] := by
  cases hpart : p.part true k with
  | nil => exact Or.inl rfl
  | cons call rest =>
    refine Or.inr ⟨call, ?_⟩
    have hnodup : (p.part true k).Nodup := p.unique.filter _
    rw [hpart] at hnodup
    have hmem : ∀ call' ∈ call :: rest, call' ∈ p.included ∧ p.point call' = k ∧ p.writes call' = true := by
      intro call' hcall'
      rw [← hpart] at hcall'
      exact p.mem_part.mp hcall'
    cases rest with
    | nil => rfl
    | cons call' rest =>
      obtain ⟨hin, hpoint, hwrites⟩ := hmem call (List.mem_cons_self ..)
      obtain ⟨hin', hpoint', hwrites'⟩ := hmem call' (List.mem_cons_of_mem _ (List.mem_cons_self ..))
      have heq := p.alone call hin call' hin' hwrites hwrites' (hpoint.trans hpoint'.symm)
      rw [heq] at hnodup
      exact absurd (List.mem_cons_self ..) (List.nodup_cons.mp hnodup).1

/-- The calls of a moment take its state to the next one. -/
theorem legal_block {k : Nat} (hk : k < moments) :
    Legal object (state k) ((p.block k).map fun call => (p.operation call, p.answer call)) (state (k + 1)) := by
  have hreads : Legal object (state k) ((p.part false k).map fun call => (p.operation call, p.answer call))
      (state k) := by
    apply Legal.of_reads
    intro x hx
    obtain ⟨call, hcall, rfl⟩ := List.mem_map.mp hx
    obtain ⟨hin, rfl, hreads⟩ := p.mem_part.mp hcall
    exact p.reads_state call hin hreads
  rw [block, List.map_append]
  refine hreads.append ?_
  rcases p.part_true_cases k with hnone | ⟨call, hone⟩
  · rw [hnone]
    refine (p.still k hk ?_).symm
    intro call hin hpoint
    by_contra hwrites
    have hmem := p.mem_part.mpr ⟨hin, hpoint, eq_true_of_ne_false hwrites⟩
    rw [hnone] at hmem
    cases hmem
  · obtain ⟨hin, rfl, hwrites⟩ : call ∈ p.included ∧ p.point call = k ∧ p.writes call = true := by
      rw [← p.mem_part, hone]
      exact List.mem_singleton.mpr rfl
    rw [hone]
    exact Legal.single (p.writes_state call hin hwrites)

theorem sublist_order {call call' : ι} (hin : call ∈ p.included) (hin' : call' ∈ p.included)
    (hlt : p.point call < p.point call') : [call, call'].Sublist p.order := by
  have hsplit : List.range moments = List.range (p.point call + 1)
      ++ List.range' (p.point call + 1) (moments - (p.point call + 1)) := by
    have hle := p.point_lt call hin
    have happend := @List.range'_append_1 0 (p.point call + 1) (moments - (p.point call + 1))
    rw [Nat.zero_add, Nat.add_sub_cancel' hle] at happend
    rw [List.range_eq_range', List.range_eq_range', happend]
  have hleft : [call].Sublist ((List.range (p.point call + 1)).flatMap p.block) := by
    rw [List.singleton_sublist, List.mem_flatMap]
    exact ⟨p.point call, List.mem_range.mpr (Nat.lt_succ_self _), p.mem_block.mpr ⟨hin, rfl⟩⟩
  have hright : [call'].Sublist
      ((List.range' (p.point call + 1) (moments - (p.point call + 1))).flatMap p.block) := by
    rw [List.singleton_sublist, List.mem_flatMap]
    refine ⟨p.point call', ?_, p.mem_block.mpr ⟨hin', rfl⟩⟩
    have hlt' := p.point_lt call' hin'
    rw [List.mem_range'_1]
    omega
  unfold order
  rw [hsplit, List.flatMap_append]
  exact hleft.append hright

/-- The calls in this order, with their operations and results. -/
def answered : List (ι × ω × ρ) := p.order.map fun call => (call, p.operation call, p.answer call)

theorem map_fst_answered : p.answered.map Prod.fst = p.order := by
  unfold answered
  rw [List.map_map]
  exact List.map_id' p.order

/-- Calls that take effect at points between their invocations and their returns are linearizable. -/
theorem linearizes : Linearizes object calls (state 0) (state moments) p.answered where
  unique := by
    rw [map_fst_answered]
    exact p.nodup_order
  legal := by
    have hblocks := Legal.flatMap fun k hk => p.legal_block (k := k) hk
    rw [← List.map_flatMap] at hblocks
    unfold answered
    rw [List.map_map]
    exact hblocks
  invoked call operation result hmem := by
    obtain ⟨call', hcall', heq⟩ := List.mem_map.mp hmem
    cases heq
    exact p.invoked _ (p.mem_order.mp hcall')
  returned call result m hreturned := by
    obtain ⟨hin, rfl, -⟩ := p.returned call result m hreturned
    exact ⟨p.operation call, List.mem_map.mpr ⟨call, p.mem_order.mpr hin, rfl⟩⟩
  realTime call result m call' operation' m' hreturned hinvoked hlt hcall' := by
    rw [map_fst_answered] at hcall' ⊢
    obtain ⟨hin, -, hpoint⟩ := p.returned call result m hreturned
    have hin' := p.mem_order.mp hcall'
    have hpoint' := p.behind call' hin' operation' m' hinvoked
    exact p.sublist_order hin hin' (by omega)

end Points

end Linearization
