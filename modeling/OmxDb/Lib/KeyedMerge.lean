import Mathlib.Data.List.Destutter
import Mathlib.Order.Lattice

/-!
# Merging keyed lists under a foreign order

Two lists sorted by key are merged, the right front going first where `before` says so, and of every run of equal
keys the first element is kept. `before` need not know about keys. The result is the merge in which the left list
wins (`FirstWins`) exactly if at every comparison of two fronts `before` agrees with the keys (`Guided`): the keys
decide between different keys, and for equal keys the left front goes first, unless the key was taken already or
the two fronts have the same value. `Guided` is defined along the merge, and both directions of
`firstWins_iff_guided` are one induction along it, with the last key taken as parameter.
-/

namespace KeyedMerge

variable {α κ β : Type*} [LinearOrder κ] (key : α → κ) (val : α → β) (before : α → α → Bool)

/-- `std::merge` with the comparison `before`: the right front goes first only where it is before the left one. -/
def merge (left right : List α) : List α := left.merge right fun a b => !before b a

/-- `std::unique` with equality of keys: an element goes where it has the key of the last one kept. -/
def unique (l : List α) : List α := l.destutter fun a b => key a ≠ key b

/-- The first element of a key. -/
def first (k : κ) (l : List α) : Option α := l.find? fun x => key x = k

/-- Strictly ascending keys, and for each key the value of its first element on the left, or else on the right. -/
structure FirstWins (left right out : List α) : Prop where
  ascending : out.Pairwise fun a b => key a < key b
  first : ∀ k, (first key k out).map val = ((first key k left).or (first key k right)).map val

/-- At every comparison of two fronts, `before` agrees with the keys; `last` is the last key taken. -/
def Guided (last : Option κ) : List α → List α → Prop
  | [], _ => True
  | _ :: _, [] => True
  | a :: left, b :: right =>
    if before b a then
      (key b < key a ∨ key b = key a ∧ (last = some (key a) ∨ val b = val a)) ∧
        Guided (some (key b)) (a :: left) right
    else key a ≤ key b ∧ Guided (some (key a)) left (b :: right)
termination_by left right => left.length + right.length

/-! ### Keeping the first of a run -/

/-- What is kept behind an element with the key `last`. -/
def kept (last : Option κ) : List α → List α
  | [] => []
  | x :: l => if last = some (key x) then kept last l else x :: kept (some (key x)) l

theorem destutter'_eq (x : α) (l : List α) :
    l.destutter' (fun a b => key a ≠ key b) x = x :: kept key (some (key x)) l := by
  induction l generalizing x with
  | nil => rfl
  | cons y l ih =>
    rw [List.destutter'_cons, kept]
    by_cases h : key x = key y
    · rw [if_neg (not_not.mpr h), if_pos (congrArg some h), ih]
    · rw [if_pos h, if_neg (fun heq => h (Option.some_inj.mp heq)), ih]

theorem unique_eq (l : List α) : unique key l = kept key none l := by
  cases l with
  | nil => rfl
  | cons x l => exact destutter'_eq key x l

variable {key val before}

theorem exists_mem_kept (key : α → κ) (last : Option κ) {l : List α} {x : α} (h : x ∈ l) :
    last = some (key x) ∨ ∃ y ∈ kept key last l, key y = key x := by
  induction l generalizing last with
  | nil => cases h
  | cons head l ih =>
    rw [kept]
    split_ifs with hlast
    · rcases List.mem_cons.mp h with rfl | h
      · exact Or.inl hlast
      · exact ih last h
    · rcases List.mem_cons.mp h with rfl | h
      · exact Or.inr ⟨x, by simp, rfl⟩
      · rcases ih (some (key head)) h with heq | ⟨y, hy, hkey⟩
        · exact Or.inr ⟨head, by simp, Option.some_inj.mp heq⟩
        · exact Or.inr ⟨y, List.mem_cons_of_mem _ hy, hkey⟩

theorem first_cons_self (x : α) (l : List α) : first key (key x) (x :: l) = some x := by
  simp [first]

theorem first_cons_of_ne {k : κ} {x : α} (h : key x ≠ k) (l : List α) :
    first key k (x :: l) = first key k l := by
  simp [first, h]

/-! ### Merging behind a key -/

/-- Nothing in the list lies below the last key taken. -/
def Above (key : α → κ) (last : Option κ) (l : List α) : Prop := ∀ x ∈ l, ∀ k, last = some k → k ≤ key x

theorem Above.tail {last : Option κ} {x : α} {l : List α} (h : Above key last (x :: l)) : Above key last l :=
  fun y hy => h y (List.mem_cons_of_mem _ hy)

theorem Above.of_le {k : κ} {x : α} {l : List α} (hx : k ≤ key x)
    (hsorted : (x :: l).Pairwise fun a b => key a ≤ key b) : Above key (some k) (x :: l) := by
  intro y hy _ hk
  cases hk
  rcases List.mem_cons.mp hy with rfl | hy
  · exact hx
  · exact le_trans hx ((List.pairwise_cons.mp hsorted).1 y hy)

theorem Above.of_cons {x : α} {l : List α} (hsorted : (x :: l).Pairwise fun a b => key a ≤ key b) :
    Above key (some (key x)) l := (Above.of_le (le_refl _) hsorted).tail

/-- No element of a smaller key is behind a key. -/
theorem Above.first_eq_none {k k' : κ} {l : List α} (h : Above key (some k) l) (hlt : k' < k) :
    first key k' l = none := by
  rw [first, List.find?_eq_none]
  intro x hx
  have hle := h x hx k rfl
  simpa using ne_of_gt (lt_of_lt_of_le hlt hle)

/-- Strictly ascending keys behind the last one taken, and for every other key the answer's value. -/
structure Answers (key : α → κ) (val : α → β) (last : Option κ) (answer : κ → Option α) (out : List α) :
    Prop where
  ascending : out.Pairwise fun a b => key a < key b
  above : ∀ x ∈ out, ∀ k, last = some k → k < key x
  first : ∀ k, last ≠ some k → (first key k out).map val = (answer k).map val

theorem answers_sorted (val : α → β) {last : Option κ} {l : List α} (hsorted : l.Pairwise fun a b => key a ≤ key b)
    (habove : Above key last l) : Answers key val last (fun k => first key k l) (kept key last l) := by
  induction l generalizing last with
  | nil =>
    rw [kept]
    exact ⟨List.Pairwise.nil, by simp, fun _ _ => rfl⟩
  | cons x l ih =>
    have htail := (List.pairwise_cons.mp hsorted).2
    rw [kept]
    split_ifs with hlast
    · have hanswers := ih htail habove.tail
      refine ⟨hanswers.ascending, hanswers.above, ?_⟩
      intro k hk
      rw [hanswers.first k hk, first_cons_of_ne]
      rintro rfl
      exact hk hlast
    · have hanswers := ih htail (Above.of_cons hsorted)
      have hbelow : ∀ y ∈ kept key (some (key x)) l, key x < key y := fun y hy => hanswers.above y hy _ rfl
      refine ⟨List.pairwise_cons.mpr ⟨hbelow, hanswers.ascending⟩, ?_, ?_⟩
      · intro y hy k hk
        have hlt : k < key x := by
          refine lt_of_le_of_ne (habove x (by simp) k hk) ?_
          rintro rfl
          exact hlast hk
        rcases List.mem_cons.mp hy with rfl | hy
        · exact hlt
        · exact lt_trans hlt (hbelow y hy)
      · intro k _
        by_cases hkey : key x = k
        · subst hkey
          rw [first_cons_self, first_cons_self]
        · rw [first_cons_of_ne hkey, first_cons_of_ne hkey]
          exact hanswers.first k fun heq => hkey (Option.some_inj.mp heq)

theorem Answers.le_of_mem {last : Option κ} {answer : κ → Option α} {x y : α} {l : List α}
    (h : Answers key val last answer (kept key last (x :: l))) (hy : y ∈ l) : key x ≤ key y := by
  rw [kept] at h
  split_ifs at h with hlast
  · rcases exists_mem_kept key last hy with heq | ⟨z, hz, hkey⟩
    · rw [hlast, Option.some_inj] at heq
      exact le_of_eq heq
    · rw [← hkey]
      exact le_of_lt (h.above z hz _ hlast)
  · rcases exists_mem_kept key (some (key x)) hy with heq | ⟨z, hz, hkey⟩
    · exact le_of_eq (Option.some_inj.mp heq)
    · rw [← hkey]
      exact le_of_lt ((List.pairwise_cons.mp h.ascending).1 z hz)

/-- Taking one element: its key is answered already or it has the answer's value, and the rest is answered
behind it. -/
theorem answers_cons_iff {last : Option κ} {answer answer' : κ → Option α} {x : α} {l : List α}
    (hlast : ∀ k, last = some k → k ≤ key x) (hsame : ∀ k, k ≠ key x → answer k = answer' k)
    (hnone : ∀ k, k < key x → answer' k = none) :
    Answers key val last answer (kept key last (x :: l)) ↔
      (last = some (key x) ∨ (answer (key x)).map val = some (val x)) ∧
        Answers key val (some (key x)) answer' (kept key (some (key x)) l) := by
  rw [kept]
  split_ifs with hx
  · subst hx
    constructor
    · intro h
      refine ⟨Or.inl rfl, h.ascending, h.above, ?_⟩
      intro k hk
      rw [h.first k hk, hsame]
      rintro rfl
      exact hk rfl
    · rintro ⟨-, h⟩
      refine ⟨h.ascending, h.above, ?_⟩
      intro k hk
      rw [h.first k hk, hsame]
      rintro rfl
      exact hk rfl
  · constructor
    · intro h
      obtain ⟨hbelow, hascending⟩ := List.pairwise_cons.mp h.ascending
      have hself := h.first (key x) hx
      rw [first_cons_self] at hself
      refine ⟨Or.inr hself.symm, hascending, ?_, ?_⟩
      · intro y hy k hk
        cases hk
        exact hbelow y hy
      · intro k hk
        have hne : key x ≠ k := fun heq => hk (congrArg some heq)
        by_cases hbehind : last = some k
        · -- a key taken before is not there any more
          have hlt : k < key x := lt_of_le_of_ne (hlast k hbehind) (Ne.symm hne)
          have habove : Above key (some (key x)) (kept key (some (key x)) l) := by
            intro y hy k' hk'
            cases hk'
            exact le_of_lt (hbelow y hy)
          rw [habove.first_eq_none hlt, hnone k hlt]
        · have hfirst := h.first k hbehind
          rw [first_cons_of_ne hne, hsame k (Ne.symm hne)] at hfirst
          exact hfirst
    · rintro ⟨hself, h⟩
      have hbelow : ∀ y ∈ kept key (some (key x)) l, key x < key y := fun y hy => h.above y hy _ rfl
      refine ⟨List.pairwise_cons.mpr ⟨hbelow, h.ascending⟩, ?_, ?_⟩
      · intro y hy k hk
        have hlt : k < key x := by
          refine lt_of_le_of_ne (hlast k hk) ?_
          rintro rfl
          exact hx hk
        rcases List.mem_cons.mp hy with rfl | hy
        · exact hlt
        · exact lt_trans hlt (hbelow y hy)
      · intro k _
        by_cases hkey : key x = k
        · subst hkey
          rw [first_cons_self]
          exact (hself.resolve_left hx).symm
        · rw [first_cons_of_ne hkey, hsame k (Ne.symm hkey)]
          exact h.first k fun heq => hkey (Option.some_inj.mp heq)

/-! ### The merge -/

/-- The first on the left, or else on the right. -/
def either (key : α → κ) (left right : List α) (k : κ) : Option α := (first key k left).or (first key k right)

theorem mem_merge {left right : List α} {x : α} : x ∈ merge before left right ↔ x ∈ left ∨ x ∈ right := by
  unfold merge
  rw [List.mem_merge]

theorem answers_cons_right {last : Option κ} {a b : α} {left right l : List α}
    (hleft : (a :: left).Pairwise fun a b => key a ≤ key b)
    (hright : (b :: right).Pairwise fun a b => key a ≤ key b) (habove : Above key last (b :: right))
    (hle : key b ≤ key a) :
    Answers key val last (either key (a :: left) (b :: right)) (kept key last (b :: l)) ↔
      (last = some (key b) ∨ (either key (a :: left) (b :: right) (key b)).map val = some (val b)) ∧
        Answers key val (some (key b)) (either key (a :: left) right) (kept key (some (key b)) l) := by
  apply answers_cons_iff (habove b (by simp))
  · intro k hk
    rw [either, either, first_cons_of_ne (Ne.symm hk)]
  · intro k hk
    rw [either, (Above.of_le hle hleft).first_eq_none hk, (Above.of_cons hright).first_eq_none hk]
    rfl

theorem answers_cons_left {last : Option κ} {a b : α} {left right l : List α}
    (hleft : (a :: left).Pairwise fun a b => key a ≤ key b)
    (hright : (b :: right).Pairwise fun a b => key a ≤ key b) (habove : Above key last (a :: left))
    (hle : key a ≤ key b) :
    Answers key val last (either key (a :: left) (b :: right)) (kept key last (a :: l)) ↔
      (last = some (key a) ∨ (either key (a :: left) (b :: right) (key a)).map val = some (val a)) ∧
        Answers key val (some (key a)) (either key left (b :: right)) (kept key (some (key a)) l) := by
  apply answers_cons_iff (habove a (by simp))
  · intro k hk
    rw [either, either, first_cons_of_ne (Ne.symm hk)]
  · intro k hk
    rw [either, (Above.of_cons hleft).first_eq_none hk, (Above.of_le hle hright).first_eq_none hk]
    rfl

theorem answers_iff_guided {last : Option κ} (left right : List α)
    (hleft : left.Pairwise fun a b => key a ≤ key b) (hright : right.Pairwise fun a b => key a ≤ key b)
    (haboveLeft : Above key last left) (haboveRight : Above key last right) :
    Answers key val last (either key left right) (kept key last (merge before left right)) ↔
      Guided key val before last left right := by
  match left, right with
  | [], right =>
    rw [Guided, merge, List.nil_merge, iff_true]
    exact answers_sorted val hright haboveRight
  | a :: left, [] =>
    rw [Guided, merge, List.merge_right, iff_true]
    have hanswers := answers_sorted val hleft haboveLeft
    refine ⟨hanswers.ascending, hanswers.above, ?_⟩
    intro k hk
    rw [hanswers.first k hk]
    unfold either
    cases first key k (a :: left) <;> rfl
  | a :: left, b :: right =>
    rw [Guided, merge, List.cons_merge_cons]
    cases hbefore : before b a with
    | true =>
      -- the right front is taken: it must not have the larger key
      have hsorted := (List.pairwise_cons.mp hright).2
      have hmem : a ∈ merge before (a :: left) right := mem_merge.mpr (Or.inl (by simp))
      simp only [Bool.not_true, Bool.false_eq_true, if_true, if_false]
      constructor
      · intro h
        have hle : key b ≤ key a := h.le_of_mem hmem
        obtain ⟨htaken, hrest⟩ := (answers_cons_right hleft hright haboveRight hle).mp h
        refine ⟨?_, (answers_iff_guided (a :: left) right hleft hsorted (Above.of_le hle hleft)
          (Above.of_cons hright)).mp hrest⟩
        rcases lt_or_eq_of_le hle with hlt | heq
        · exact Or.inl hlt
        · refine Or.inr ⟨heq, ?_⟩
          rw [heq] at htaken
          refine htaken.imp_right fun hval => ?_
          rw [either, first_cons_self] at hval
          exact (Option.some_inj.mp hval).symm
      · rintro ⟨htaken, hrest⟩
        have hle : key b ≤ key a := by
          rcases htaken with hlt | ⟨heq, -⟩
          · exact le_of_lt hlt
          · exact le_of_eq heq
        refine (answers_cons_right hleft hright haboveRight hle).mpr ⟨?_, (answers_iff_guided (a :: left) right
          hleft hsorted (Above.of_le hle hleft) (Above.of_cons hright)).mpr hrest⟩
        rcases htaken with hlt | ⟨heq, htaken⟩
        · refine Or.inr ?_
          rw [either, (Above.of_le (le_refl _) hleft).first_eq_none hlt, first_cons_self]
          rfl
        · rw [heq]
          refine htaken.imp_right fun hval => ?_
          rw [either, first_cons_self, hval]
          rfl
    | false =>
      -- the left front is taken, and answers for its key
      have hsorted := (List.pairwise_cons.mp hleft).2
      have hmem : b ∈ merge before left (b :: right) := mem_merge.mpr (Or.inr (by simp))
      simp only [Bool.not_false, Bool.false_eq_true, if_true, if_false]
      constructor
      · intro h
        have hle : key a ≤ key b := h.le_of_mem hmem
        obtain ⟨-, hrest⟩ := (answers_cons_left hleft hright haboveLeft hle).mp h
        exact ⟨hle, (answers_iff_guided left (b :: right) hsorted hright (Above.of_cons hleft)
          (Above.of_le hle hright)).mp hrest⟩
      · rintro ⟨hle, hrest⟩
        refine (answers_cons_left hleft hright haboveLeft hle).mpr ⟨Or.inr ?_, (answers_iff_guided left (b :: right)
          hsorted hright (Above.of_cons hleft) (Above.of_le hle hright)).mpr hrest⟩
        rw [either, first_cons_self]
        rfl
termination_by left.length + right.length

/-- The result is the merge in which the left list wins if and only if `before` agrees with the keys at every
comparison. -/
theorem firstWins_iff_guided {left right : List α} (hleft : left.Pairwise fun a b => key a ≤ key b)
    (hright : right.Pairwise fun a b => key a ≤ key b) :
    FirstWins key val left right (unique key (merge before left right)) ↔ Guided key val before none left right := by
  have habove (l : List α) : Above key none l := by
    intro x _ k hk
    cases hk
  rw [← answers_iff_guided left right hleft hright (habove left) (habove right), unique_eq]
  constructor
  · intro h
    refine ⟨h.ascending, ?_, fun k _ => h.first k⟩
    intro x _ k hk
    cases hk
  · intro h
    exact ⟨h.ascending, fun k => h.first k (by simp)⟩

end KeyedMerge
