import Mathlib.Data.List.Infix
import Mathlib.Data.List.Nodup
import Mathlib.Data.List.TakeDrop

/-!
# Histories

A history is an append-only list of entries, each made by a thread. `latest` is the value of the last entry
that has one. A moment of a call is a prefix of the history that contains its beginning; what is said about
moments stays true while the history grows (`Between.append`), and so does that a thread has made no entry
since (`QuietSince.append`).
-/

namespace Histories

variable {α β τ : Type*}

/-- The value of the last entry that has one. -/
def latest (value : α → Option β) (h : List α) : Option β := h.reverse.findSome? value

@[simp] theorem latest_nil (value : α → Option β) : latest value [] = none := rfl

theorem latest_append_singleton (value : α → Option β) (h : List α) (x : α) :
    latest value (h ++ [x]) = (value x).or (latest value h) := by
  unfold latest
  rw [List.reverse_append, List.reverse_singleton, List.singleton_append, List.findSome?_cons]
  cases value x <;> rfl

theorem latest_append (value : α → Option β) (h h' : List α) :
    latest value (h ++ h') = (latest value h').or (latest value h) := by
  unfold latest
  rw [List.reverse_append, List.findSome?_append]

theorem latest_ne_none {value : α → Option β} {h h' : List α} (hle : h <+: h') (hne : latest value h ≠ none) :
    latest value h' ≠ none := by
  obtain ⟨tail, rfl⟩ := hle
  rw [latest_append]
  cases latest value tail with
  | none => exact hne
  | some _ => exact Option.some_ne_none _

/-- A moment between the beginning and now. -/
def Between (began moment h : List α) : Prop := began <+: moment ∧ moment <+: h

theorem Between.now {began h : List α} (hbegan : began <+: h) : Between began h h :=
  ⟨hbegan, List.prefix_refl h⟩

theorem Between.append {began moment h : List α} (hb : Between began moment h) (x : List α) :
    Between began moment (h ++ x) :=
  ⟨hb.1, hb.2.trans (List.prefix_append h x)⟩

/-- The history has gone on since the beginning, without the thread. -/
def QuietSince (thread : α → τ) (t : τ) (began h : List α) : Prop :=
  ∃ during, h = began ++ during ∧ ∀ x ∈ during, thread x ≠ t

theorem QuietSince.now (thread : α → τ) (t : τ) (h : List α) : QuietSince thread t h h :=
  ⟨[], (List.append_nil h).symm, by simp⟩

theorem QuietSince.prefixed {thread : α → τ} {t : τ} {began h : List α}
    (hq : QuietSince thread t began h) : began <+: h := by
  obtain ⟨during, rfl, -⟩ := hq
  exact List.prefix_append began during

theorem QuietSince.append {thread : α → τ} {t : τ} {began h x : List α} (hq : QuietSince thread t began h)
    (hx : ∀ y ∈ x, thread y ≠ t) : QuietSince thread t began (h ++ x) := by
  obtain ⟨during, rfl, hduring⟩ := hq
  refine ⟨during ++ x, List.append_assoc _ _ _, ?_⟩
  intro y hy
  rcases List.mem_append.mp hy with hy | hy
  · exact hduring y hy
  · exact hx y hy

theorem split_of_getElem? {h : List α} {m : Nat} {x : α} (hx : h[m]? = some x) :
    h = h.take m ++ x :: h.drop (m + 1) ∧ (h.take m).length = m := by
  obtain ⟨hlt, rfl⟩ := List.getElem?_eq_some_iff.mp hx
  refine ⟨?_, List.length_take_of_le (Nat.le_of_lt hlt)⟩
  rw [List.cons_getElem_drop_succ, List.take_append_drop]

theorem mem_take_of_getElem? {h : List α} {p m : Nat} {x : α} (hp : h[p]? = some x) (hlt : p < m) : x ∈ h.take m := by
  have htake : (h.take m)[p]? = some x := by rw [List.getElem?_take_of_lt hlt, hp]
  exact List.mem_of_getElem? htake

theorem exists_getElem?_of_mem_take {h : List α} {m : Nat} {x : α} (hx : x ∈ h.take m) :
    ∃ p < m, h[p]? = some x := by
  obtain ⟨p, hp⟩ := List.getElem?_of_mem hx
  have hlt : p < m := by
    have hlength := (List.getElem?_eq_some_iff.mp hp).1
    rw [List.length_take] at hlength
    omega
  rw [List.getElem?_take_of_lt hlt] at hp
  exact ⟨p, hlt, hp⟩

theorem nodup_filterMap {f : α → Option β} {h : List α}
    (hnew : ∀ before x after, h = before ++ x :: after → ∀ y, f x = some y → y ∉ before.filterMap f) :
    (h.filterMap f).Nodup := by
  induction h using List.reverseRecOn with
  | nil => exact List.nodup_nil
  | append_singleton h x ih =>
    have hold : (h.filterMap f).Nodup := by
      apply ih
      intro before z after hsplit
      exact hnew before z (after ++ [x]) (by rw [hsplit]; simp)
    rw [List.filterMap_append]
    cases hx : f x with
    | none => simpa [hx] using hold
    | some y =>
      have hy := hnew h x [] rfl y hx
      rw [List.filterMap_cons_some hx, List.filterMap_nil]
      exact hold.append (List.nodup_singleton y) (List.disjoint_singleton.mpr hy)

theorem QuietSince.getElem? {thread : α → τ} {t : τ} {began before : List α} {x : α}
    (hq : QuietSince thread t (began ++ [x]) before) (after : List α) :
    (before ++ after)[began.length]? = some x ∧ began.length < before.length ∧
      ∀ l z, began.length < l → l < before.length → (before ++ after)[l]? = some z → thread z ≠ t := by
  obtain ⟨during, rfl, hduring⟩ := hq
  refine ⟨by simp, by simp, ?_⟩
  intro l z hlower hupper hz
  apply hduring z
  have hinside : l - (began.length + 1) < during.length := by
    simp only [List.length_append, List.length_singleton] at hupper
    omega
  rw [List.append_assoc, List.getElem?_append_right (by simp; omega), List.length_append, List.length_singleton,
    List.getElem?_append_left hinside] at hz
  exact List.mem_of_getElem? hz

/-- What holds of every entry and the history before it, as the history grows by one entry. -/
theorem forall_split_append {p : List α → α → Prop} {h : List α} {x : α}
    (hold : ∀ before y after, h = before ++ y :: after → p before y) (hnew : p h x) :
    ∀ before y after, h ++ [x] = before ++ y :: after → p before y := by
  intro before y after heq
  rcases List.eq_nil_or_concat after with rfl | ⟨after', z, rfl⟩
  · obtain ⟨rfl, hlast⟩ := List.append_inj' heq rfl
    cases hlast
    exact hnew
  · have hsplit : h ++ [x] = (before ++ y :: after') ++ [z] := by
      rw [heq]
      simp
    exact hold before y after' (List.append_inj' hsplit rfl).1

end Histories
