import Mathlib.Order.Lattice
import Mathlib.Data.List.Pairwise
import Mathlib.Data.List.Perm.Basic

/-!
# First matches in ranked lists

In a list whose ranks fall strictly, the first element that passes a test is the one of greatest rank that
does. So two arrangements of the same elements agree on a first match exactly when the first match of the one
has the greatest rank of the other.
-/

namespace Selection

variable {α ρ : Type*} [LinearOrder ρ] {rank : α → ρ} {l : List α} {test : α → Bool} {x : α}

theorem le_of_find? (hsorted : l.Pairwise fun a b => rank b < rank a) (h : l.find? test = some x) :
    ∀ y ∈ l, test y = true → rank y ≤ rank x := by
  induction l with
  | nil => simp at h
  | cons head tail ih =>
    obtain ⟨hhead, htail⟩ := List.pairwise_cons.mp hsorted
    by_cases hpass : test head = true
    · rw [List.find?_cons_of_pos hpass] at h
      cases h
      intro y hy _
      rcases List.mem_cons.mp hy with rfl | hy
      · exact le_refl _
      · exact le_of_lt (hhead y hy)
    · rw [List.find?_cons_of_neg hpass] at h
      intro y hy hy'
      rcases List.mem_cons.mp hy with rfl | hy
      · exact absurd hy' hpass
      · exact ih htail h y hy hy'

theorem find?_eq_some_of_le (test : α → Bool) (hsorted : l.Pairwise fun a b => rank b < rank a) (hx : x ∈ l)
    (hpass : test x = true) (hmax : ∀ y ∈ l, test y = true → rank y ≤ rank x) :
    l.find? test = some x := by
  induction l with
  | nil => simp at hx
  | cons head tail ih =>
    obtain ⟨hhead, htail⟩ := List.pairwise_cons.mp hsorted
    rcases List.mem_cons.mp hx with rfl | hx
    · exact List.find?_cons_of_pos hpass
    · have hfail : ¬ test head = true := by
        intro h
        exact absurd (hhead x hx) (not_lt.mpr (hmax head (by simp) h))
      rw [List.find?_cons_of_neg hfail]
      exact ih htail hx fun y hy => hmax y (List.mem_cons_of_mem _ hy)

/-- Two arrangements of the same elements, ranked in two ways, agree on the first match if and only if the
match of the one rank is the greatest match of the other. -/
theorem find?_eq_iff (test : α → Bool) {ρ' : Type*} [LinearOrder ρ'] {rank' : α → ρ'} {l' : List α}
    (hsorted : l.Pairwise fun a b => rank b < rank a)
    (hsorted' : l'.Pairwise fun a b => rank' b < rank' a) (hperm : l'.Perm l) :
    l'.find? test = l.find? test ↔
      ∀ x ∈ l, test x = true → (∀ y ∈ l, test y = true → rank y ≤ rank x) →
        ∀ y ∈ l, test y = true → rank' y ≤ rank' x := by
  constructor
  · intro heq x hx hpass hmax y hy hy'
    have hfind := find?_eq_some_of_le test hsorted hx hpass hmax
    rw [← heq] at hfind
    exact le_of_find? hsorted' hfind y (hperm.mem_iff.mpr hy) hy'
  · intro h
    cases hfind : l.find? test with
    | none =>
      rw [List.find?_eq_none] at hfind ⊢
      intro y hy
      exact hfind y (hperm.mem_iff.mp hy)
    | some x =>
      have hx := List.mem_of_find?_eq_some hfind
      have hpass := List.find?_some hfind
      have hmax' := h x hx hpass (le_of_find? hsorted hfind)
      apply find?_eq_some_of_le test hsorted' (hperm.mem_iff.mpr hx) hpass
      intro y hy hy'
      exact hmax' y (hperm.mem_iff.mp hy) hy'

end Selection
