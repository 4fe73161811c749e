import Mathlib.Data.List.Basic

/-!
# Length-prefixed frames over a byte stream

A `Channel` delivers in order what was written to it, in chunks of any size. A `Reader` takes a header of fixed
width from it, learns from the header how many elements follow, and takes these as well, keeping all it took in one
buffer. However the chunks fall and whatever is written behind the frame, the buffer is a prefix of what was written
(`Reads`), and once the reader is through with a frame whose header tells its length, the buffer is that frame
(`Reads.buffer_eq`).
-/

namespace Framing

variable {α : Type*}

/-! ### Channels -/

/-- What was written, how much of it has arrived and how much of that was taken. -/
structure Channel (α : Type*) where
  written : List α := []
  arrived : Nat := 0
  consumed : Nat := 0
  consumed_le : consumed ≤ arrived := by exact Nat.zero_le _
  arrived_le : arrived ≤ written.length := by exact Nat.zero_le _

namespace Channel

def write (c : Channel α) (items : List α) : Channel α where
  written := c.written ++ items
  arrived := c.arrived
  consumed := c.consumed
  consumed_le := c.consumed_le
  arrived_le := by
    have h := c.arrived_le
    rw [List.length_append]
    omega

/-- The next `n` elements arrive. -/
def deliver (c : Channel α) (n : Nat) : Option (Channel α) :=
  if h : 0 < n ∧ c.arrived + n ≤ c.written.length then
    some { c with
      arrived := c.arrived + n
      consumed_le := Nat.le_add_right_of_le c.consumed_le
      arrived_le := h.2 }
  else none

/-- The next `n` elements that arrived are taken. -/
def take (c : Channel α) (n : Nat) : Option (List α × Channel α) :=
  if h : 0 < n ∧ c.consumed + n ≤ c.arrived then
    some ((c.written.drop c.consumed).take n, { c with consumed := c.consumed + n, consumed_le := h.2 })
  else none

/-- What was taken so far. -/
def taken (c : Channel α) : List α := c.written.take c.consumed

theorem taken_write (c : Channel α) (items : List α) : (c.write items).taken = c.taken :=
  List.take_append_of_le_length (Nat.le_trans c.consumed_le c.arrived_le)

theorem deliver_eq {c c' : Channel α} {n : Nat} (h : c.deliver n = some c') :
    c'.written = c.written ∧ c'.taken = c.taken := by
  unfold deliver at h
  split_ifs at h
  cases h
  exact ⟨rfl, rfl⟩

theorem take_eq {c c' : Channel α} {n : Nat} {items : List α} (h : c.take n = some (items, c')) :
    c'.written = c.written ∧ c'.taken = c.taken ++ items ∧ items.length = n ∧ 0 < n := by
  unfold take at h
  split_ifs at h with hn
  cases h
  have hle := Nat.le_trans hn.2 c.arrived_le
  refine ⟨rfl, List.take_add, ?_, hn.1⟩
  rw [List.length_take, List.length_drop]
  omega

/-- The elements that still have to arrive, and those that still have to be taken. -/
def left (c : Channel α) : Nat := (c.written.length - c.arrived) + (c.written.length - c.consumed)

theorem left_deliver {c c' : Channel α} {n : Nat} (h : c.deliver n = some c') : c'.left < c.left := by
  unfold deliver at h
  split_ifs at h with hn
  cases h
  unfold left
  dsimp only
  omega

theorem left_take {c c' : Channel α} {n : Nat} {items : List α} (h : c.take n = some (items, c')) :
    c'.left < c.left := by
  have harrived := c.arrived_le
  unfold take at h
  split_ifs at h with hn
  cases h
  unfold left
  dsimp only
  omega

theorem taken_eq_written {c : Channel α} (hdeliver : c.deliver 1 = none) (htake : c.take 1 = none) :
    c.taken = c.written := by
  have harrived := c.arrived_le
  have hconsumed := c.consumed_le
  unfold deliver at hdeliver
  split_ifs at hdeliver with hall
  unfold take at htake
  split_ifs at htake with hread
  apply List.take_of_length_le
  omega

end Channel

/-! ### Readers -/

/-- What was read so far, how much the pending read still waits for, and whether that is the content. -/
structure Reader (α : Type*) (width : Nat) where
  buffer : List α := []
  remaining : Nat := width
  content : Bool := false

namespace Reader

variable {width : Nat}

/-- A chunk of the pending read. -/
def receive (r : Reader α width) (items : List α) : Reader α width :=
  { r with buffer := r.buffer ++ items, remaining := r.remaining - items.length }

/-- The header is complete; a read of `n` more elements begins. -/
def expect (r : Reader α width) (n : Nat) : Reader α width := { r with remaining := n, content := true }

variable (sizeOf : List α → Nat)

/-- The buffer is what was taken from the channel, and what is still waited for completes the header, or the content
of the size the header tells. -/
structure Reads (r : Reader α width) (c : Channel α) : Prop where
  buffer : r.buffer = c.taken
  header : r.content = false → r.buffer.length + r.remaining = width
  content : r.content = true → r.buffer.length + r.remaining = width + sizeOf (r.buffer.take width) ∧
    width ≤ r.buffer.length

variable {sizeOf} {r : Reader α width} {c : Channel α}

theorem reads_initial : Reads sizeOf ({} : Reader α width) {} where
  buffer := rfl
  header _ := Nat.zero_add width
  content h := by cases h

theorem Reads.write (h : Reads sizeOf r c) (items : List α) : Reads sizeOf r (c.write items) where
  buffer := by rw [Channel.taken_write, h.buffer]
  header := h.header
  content := h.content

theorem Reads.deliver (h : Reads sizeOf r c) {c' : Channel α} {n : Nat} (hc : c.deliver n = some c') :
    Reads sizeOf r c' where
  buffer := by rw [(Channel.deliver_eq hc).2, h.buffer]
  header := h.header
  content := h.content

theorem Reads.receive (h : Reads sizeOf r c) {c' : Channel α} {n : Nat} {items : List α}
    (hc : c.take n = some (items, c')) (hn : n ≤ r.remaining) : Reads sizeOf (r.receive items) c' := by
  obtain ⟨-, htaken, hlength, -⟩ := Channel.take_eq hc
  constructor
  · show r.buffer ++ items = c'.taken
    rw [htaken, h.buffer]
  · intro hheader
    have hsum := h.header hheader
    show (r.buffer ++ items).length + (r.remaining - items.length) = width
    rw [List.length_append]
    omega
  · intro hcontent
    obtain ⟨hsum, hle⟩ := h.content hcontent
    show (r.buffer ++ items).length + (r.remaining - items.length)
      = width + sizeOf ((r.buffer ++ items).take width) ∧ width ≤ (r.buffer ++ items).length
    rw [List.take_append_of_le_length hle, List.length_append]
    omega

theorem Reads.expect (h : Reads sizeOf r c) (hheader : r.content = false) (hremaining : r.remaining = 0) :
    Reads sizeOf (r.expect (sizeOf (r.buffer.take width))) c := by
  have hsum := h.header hheader
  constructor
  · exact h.buffer
  · intro hcontent
    cases hcontent
  · intro _
    show r.buffer.length + sizeOf (r.buffer.take width) = width + sizeOf (r.buffer.take width) ∧
      width ≤ r.buffer.length
    omega

theorem Reads.written_ne_nil (h : Reads sizeOf r c) (hcontent : r.content = true) (hwidth : 0 < width) :
    c.written ≠ [] := by
  intro hnil
  obtain ⟨-, hle⟩ := h.content hcontent
  rw [h.buffer, Channel.taken, hnil, List.take_nil, List.length_nil] at hle
  omega

theorem Reads.bounded (h : Reads sizeOf r c) : r.buffer.length ≤ width + sizeOf (r.buffer.take width) := by
  cases hcontent : r.content with
  | false =>
    have hsum := h.header hcontent
    omega
  | true =>
    have hsum := (h.content hcontent).1
    omega

/-- A frame that is written is not shorter than its header, which tells the size of the rest. -/
structure Framed (width : Nat) (sizeOf : List α → Nat) (frame : List α) : Prop where
  header_le : width ≤ frame.length
  size : sizeOf (frame.take width) = frame.length - width

theorem consumed_le_of_framed {c : Channel α} {sizeOf : List α → Nat}
    (hbounded : c.taken.length ≤ width + sizeOf (c.taken.take width)) {frame : List α}
    (hframe : Framed width sizeOf frame) (hfront : frame <+: c.written) : c.consumed ≤ frame.length := by
  have hlength : c.taken.length = c.consumed := List.length_take_of_le (Nat.le_trans c.consumed_le c.arrived_le)
  by_contra hmore
  obtain ⟨rest, hrest⟩ : frame <+: c.taken :=
    List.prefix_of_prefix_length_le hfront (List.take_prefix _ _) (by omega)
  have hheader := hframe.header_le
  rw [← hrest, List.take_append_of_le_length hheader, hframe.size, hrest] at hbounded
  omega

theorem Reads.framed (h : Reads sizeOf r c) (hcontent : r.content = true) (hremaining : r.remaining = 0) :
    Framed width sizeOf r.buffer := by
  obtain ⟨hsum, hle⟩ := h.content hcontent
  exact ⟨hle, by omega⟩

section frame

variable {frame tail : List α} (hframe : Framed width sizeOf frame) (h : Reads sizeOf r c)
  (hwritten : c.written = frame ++ tail)
include hframe h hwritten

omit hframe in
theorem Reads.buffer_prefix : r.buffer <+: frame ++ tail := by
  rw [h.buffer, ← hwritten]
  exact List.take_prefix _ _

theorem Reads.length_le : r.buffer.length + r.remaining ≤ frame.length := by
  have hle := hframe.header_le
  cases hcontent : r.content with
  | false =>
    have hsum := h.header hcontent
    omega
  | true =>
    obtain ⟨hsum, hbuffer⟩ := h.content hcontent
    have htake : r.buffer.take width = frame.take width := by
      obtain ⟨rest, hrest⟩ := h.buffer_prefix hwritten
      rw [← List.take_append_of_le_length hbuffer, hrest, List.take_append_of_le_length hle]
    rw [htake, hframe.size] at hsum
    omega

/-- A reader that is through has read the frame, whatever follows it. -/
theorem Reads.buffer_eq (hcontent : r.content = true) (hremaining : r.remaining = 0) : r.buffer = frame := by
  obtain ⟨hsum, hbuffer⟩ := h.content hcontent
  obtain ⟨rest, hrest⟩ := h.buffer_prefix hwritten
  have hle := hframe.header_le
  have htake : r.buffer.take width = frame.take width := by
    rw [← List.take_append_of_le_length hbuffer, hrest, List.take_append_of_le_length hle]
  rw [htake, hframe.size, hremaining] at hsum
  exact (List.append_inj hrest (by omega)).1

theorem Reads.remaining_eq_zero (htaken : c.taken = c.written) : r.remaining = 0 := by
  have hle := h.length_le hframe hwritten
  have hlength := congrArg List.length (h.buffer.trans (htaken.trans hwritten))
  rw [List.length_append] at hlength
  omega

end frame

theorem Reads.remaining_ne_zero (h : Reads sizeOf r c) {frame : List α} (hframe : Framed width sizeOf frame)
    (hpart : c.written <+: frame) (hshort : c.written.length < frame.length) (hcontent : r.content = true) :
    r.remaining ≠ 0 := by
  obtain ⟨hsum, hbuffer⟩ := h.content hcontent
  have htaken : r.buffer <+: c.written := by
    rw [h.buffer]
    exact List.take_prefix _ _
  have htake : r.buffer.take width = frame.take width := by
    obtain ⟨rest, hrest⟩ := htaken.trans hpart
    rw [← hrest, List.take_append_of_le_length hbuffer]
  have hheader := hframe.header_le
  have hlength := htaken.length_le
  rw [htake, hframe.size] at hsum
  omega

end Reader

end Framing
