import Mathlib.Data.List.GetD

/-!
# Growable arrays

An array that a write makes as long as it needs to be. `write` says what that is, index by index: items at the
offset, a filler in a gap behind the old end, and everything else as it was. Code gets there in two steps, a `resize`
where the array is too short and an `overwrite` in place; `overwrite_resize` and `overwrite_eq_write` are that it
gets there.
-/

namespace GrowableArray

variable {α : Type*}

/-- `items` from `offset` on, `filler` in a gap in front of them. -/
def write (filler : α) (array : List α) (offset : Nat) (items : List α) : List α :=
  (List.range (max array.length (offset + items.length))).map fun i =>
    if i < offset then array.getD i filler else items.getD (i - offset) (array.getD i filler)

/-- The first `n` elements, or `filler` behind all of them. -/
def resize (filler : α) (array : List α) (n : Nat) : List α :=
  array.take n ++ List.replicate (n - array.length) filler

/-- `items` in place of as many elements from `offset` on. -/
def overwrite (array : List α) (offset : Nat) (items : List α) : List α :=
  array.take offset ++ (items ++ array.drop (offset + items.length))

/-- `size` elements from `offset` on. -/
def slice (array : List α) (offset size : Nat) : List α := (array.drop offset).take size

@[simp] theorem length_write (filler : α) (array : List α) (offset : Nat) (items : List α) :
    (write filler array offset items).length = max array.length (offset + items.length) := by
  rw [write, List.length_map, List.length_range]

theorem length_resize (filler : α) (array : List α) (n : Nat) : (resize filler array n).length = n := by
  rw [resize, List.length_append, List.length_take, List.length_replicate]
  omega

theorem length_overwrite {array : List α} {offset : Nat} {items : List α}
    (h : offset + items.length ≤ array.length) : (overwrite array offset items).length = array.length := by
  rw [overwrite, List.length_append, List.length_append, List.length_take, List.length_drop]
  omega

theorem length_slice_le (array : List α) (offset size : Nat) : (slice array offset size).length ≤ size :=
  List.length_take_le size _

theorem overwrite_eq_write (filler : α) {array : List α} {offset : Nat} {items : List α}
    (h : offset + items.length ≤ array.length) : overwrite array offset items = write filler array offset items := by
  have hmax : max array.length (offset + items.length) = array.length := Nat.max_eq_left h
  apply List.ext_getElem
  · rw [length_overwrite h, length_write, hmax]
  · intro i hi _
    rw [length_overwrite h] at hi
    have htake : (array.take offset).length = offset := List.length_take_of_le (by omega)
    simp only [overwrite, write, List.getElem_map, List.getElem_range]
    by_cases hbefore : i < offset
    · rw [List.getElem_append_left (by omega), List.getElem_take, if_pos hbefore, List.getD_eq_getElem _ _ hi]
    · rw [List.getElem_append_right (by omega), if_neg hbefore]
      simp only [htake]
      by_cases hinside : i - offset < items.length
      · rw [List.getElem_append_left hinside, List.getD_eq_getElem _ _ hinside]
      · rw [List.getElem_append_right (by omega), List.getElem_drop, List.getD_eq_default _ _ (by omega),
          List.getD_eq_getElem _ _ hi]
        congr 1
        omega

theorem getD_resize (filler : α) {array : List α} {n : Nat} (h : array.length ≤ n) (i : Nat) :
    (resize filler array n).getD i filler = array.getD i filler := by
  rw [resize, List.take_of_length_le h]
  rcases Nat.lt_or_ge i array.length with hi | hi
  · rw [List.getD_append _ _ _ _ hi]
  · rw [List.getD_append_right _ _ _ _ hi, List.getD_eq_default array filler hi]
    rcases Nat.lt_or_ge (i - array.length) (n - array.length) with hin | hout
    · exact List.getD_replicate filler hin
    · exact List.getD_eq_default _ filler (by rwa [List.length_replicate])

theorem overwrite_resize (filler : α) {array : List α} {offset : Nat} {items : List α}
    (h : array.length ≤ offset + items.length) :
    overwrite (resize filler array (offset + items.length)) offset items = write filler array offset items := by
  have hlength := length_resize filler array (offset + items.length)
  rw [overwrite_eq_write filler (Nat.le_of_eq hlength.symm)]
  simp only [write, hlength, Nat.max_self, Nat.max_eq_right h, getD_resize filler h]

end GrowableArray
