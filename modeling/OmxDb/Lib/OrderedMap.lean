import Mathlib.Order.Defs.Unbundled
import Mathlib.Data.List.Pairwise
import Mathlib.Data.List.Basic

/-!
# Ordered maps over a comparator

The part of `std::map` a program relies on when it brings its own comparator: the entries are kept sorted
by a strict total order `lt`, insertion of a key that is already there does nothing, and iteration visits
the entries in order. The order is carried as a field, so a map whose entries are out of order cannot be
built. Lookup by another kind of key (`find?` with a test on the keys) finds the first entry in order
that passes the test.
-/

/-- Entries sorted by the comparator `lt` on their keys. -/
@[ext] structure OrderedMap {α : Type*} (lt : α → α → Bool) (β : Type*) where
  entries : List (α × β)
  sorted : entries.Pairwise fun a b => lt a.1 b.1

namespace OrderedMap

variable {α β : Type*} {lt : α → α → Bool}

/-- The comparator is a strict total order. -/
class Comparator (lt : α → α → Bool) : Prop where
  trans : ∀ {a b c}, lt a b → lt b c → lt a c
  irrefl : ∀ a, lt a a = false
  total : ∀ {a b}, a ≠ b → lt a b ∨ lt b a

/-- Insertion into sorted entries; an entry with the key is left alone. -/
def insertEntry (lt : α → α → Bool) (key : α) (value : β) : List (α × β) → List (α × β)
  | [] => [(key, value)]
  | entry :: entries =>
    if lt key entry.1 then (key, value) :: entry :: entries
    else if lt entry.1 key then entry :: insertEntry lt key value entries
    else entry :: entries

theorem mem_of_mem_insertEntry {key : α} {value : β} {entries : List (α × β)} {entry : α × β}
    (h : entry ∈ insertEntry lt key value entries) : entry = (key, value) ∨ entry ∈ entries := by
  induction entries with
  | nil => simpa [insertEntry] using h
  | cons head tail ih =>
    rw [insertEntry] at h
    split_ifs at h
    · simpa using h
    · rcases List.mem_cons.mp h with rfl | h
      · simp
      · rcases ih h with h | h
        · exact Or.inl h
        · exact Or.inr (List.mem_cons_of_mem _ h)
    · exact Or.inr h

theorem mem_insertEntry_of_mem {key : α} {value : β} {entries : List (α × β)} {entry : α × β}
    (h : entry ∈ entries) : entry ∈ insertEntry lt key value entries := by
  induction entries with
  | nil => simp at h
  | cons head tail ih =>
    rw [insertEntry]
    split_ifs
    · exact List.mem_cons_of_mem _ h
    · rcases List.mem_cons.mp h with rfl | h
      · simp
      · exact List.mem_cons_of_mem _ (ih h)
    · exact h

theorem perm_insertEntry [Comparator lt] {key : α} {value : β} {entries : List (α × β)}
    (hfresh : ∀ entry ∈ entries, entry.1 ≠ key) :
    (insertEntry lt key value entries).Perm ((key, value) :: entries) := by
  induction entries with
  | nil => exact List.Perm.refl _
  | cons head tail ih =>
    rw [insertEntry]
    split_ifs with hbefore hafter
    · exact List.Perm.refl _
    · have htail := ih fun entry h => hfresh entry (List.mem_cons_of_mem _ h)
      exact (htail.cons head).trans (List.Perm.swap _ _ _)
    · have htotal : lt head.1 key = true ∨ lt key head.1 = true := Comparator.total (hfresh head (by simp))
      rcases htotal with h | h
      · exact absurd h hafter
      · exact absurd h hbefore

theorem mem_insertEntry_self [Comparator lt] {key : α} {value : β} {entries : List (α × β)}
    (hfresh : ∀ entry ∈ entries, entry.1 ≠ key) : (key, value) ∈ insertEntry lt key value entries :=
  (perm_insertEntry hfresh).mem_iff.mpr (by simp)

theorem length_insertEntry [Comparator lt] {key : α} {value : β} {entries : List (α × β)}
    (hfresh : ∀ entry ∈ entries, entry.1 ≠ key) :
    (insertEntry lt key value entries).length = entries.length + 1 :=
  (perm_insertEntry hfresh).length_eq

theorem sorted_insertEntry [Comparator lt] (key : α) (value : β) {entries : List (α × β)}
    (h : entries.Pairwise fun a b => lt a.1 b.1) :
    (insertEntry lt key value entries).Pairwise fun a b => lt a.1 b.1 := by
  induction entries with
  | nil => simp [insertEntry]
  | cons head tail ih =>
    obtain ⟨hhead, htail⟩ := List.pairwise_cons.mp h
    rw [insertEntry]
    split_ifs with hbefore hafter
    · refine List.pairwise_cons.mpr ⟨fun entry hmem => ?_, h⟩
      rcases List.mem_cons.mp hmem with rfl | hmem
      · exact hbefore
      · exact Comparator.trans hbefore (hhead entry hmem)
    · refine List.pairwise_cons.mpr ⟨fun entry hmem => ?_, ih htail⟩
      rcases mem_of_mem_insertEntry hmem with rfl | hmem
      · exact hafter
      · exact hhead entry hmem
    · exact h

/-- What a first-match lookup sees after an insertion: the new entry, where it passes the test and stands
before every old entry that does. -/
theorem find?_insertEntry_self [Comparator lt] {key : α} {value : β} {entries : List (α × β)}
    (test : α → Bool) (htest : test key = true)
    (hfirst : ∀ entry ∈ entries, test entry.1 = true → lt key entry.1 = true) :
    (insertEntry lt key value entries).find? (fun entry => test entry.1) = some (key, value) := by
  induction entries with
  | nil => simp [insertEntry, htest]
  | cons head tail ih =>
    rw [insertEntry]
    by_cases hbefore : lt key head.1 = true
    · simp [hbefore, htest]
    · have hfail : test head.1 = false := by
        by_contra hpass
        exact hbefore (hfirst head (by simp) (by simpa using hpass))
      have hneq : head.1 ≠ key := by
        intro heq
        rw [heq, htest] at hfail
        cases hfail
      have htotal : lt head.1 key = true ∨ lt key head.1 = true := Comparator.total hneq
      have hafter : lt head.1 key = true := htotal.resolve_right hbefore
      rw [if_neg hbefore, if_pos hafter, List.find?_cons, hfail]
      exact ih fun entry hmem => hfirst entry (List.mem_cons_of_mem _ hmem)

theorem find?_insertEntry_of_not {key : α} {value : β} {entries : List (α × β)}
    (test : α → Bool) (htest : test key = false) :
    (insertEntry lt key value entries).find? (fun entry => test entry.1)
      = entries.find? (fun entry => test entry.1) := by
  induction entries with
  | nil => simp [insertEntry, htest]
  | cons head tail ih =>
    rw [insertEntry]
    split_ifs
    · rw [List.find?_cons, htest]
    · rw [List.find?_cons, List.find?_cons, ih]
    · rfl

/-- The map without entries. -/
def empty : OrderedMap lt β := ⟨[], List.Pairwise.nil⟩

/-- `insert({key, value})`: nothing happens where the key is in the map already. -/
def insert [Comparator lt] (m : OrderedMap lt β) (key : α) (value : β) : OrderedMap lt β :=
  ⟨insertEntry lt key value m.entries, sorted_insertEntry key value m.sorted⟩

@[simp] theorem entries_empty : (empty : OrderedMap lt β).entries = [] := rfl

@[simp] theorem entries_insert [Comparator lt] (m : OrderedMap lt β) (key : α) (value : β) :
    (m.insert key value).entries = insertEntry lt key value m.entries := rfl

end OrderedMap
