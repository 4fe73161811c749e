import Mathlib.Data.List.Basic

/-!
# Byte input streams with state flags

A C++ input stream as far as unformatted reads see it: the bytes not read yet and the three state flags.
`read n` extracts up to `n` bytes; a stream that is not good extracts nothing and only gets its fail flag
set, and a short read sets eof and fail. `peek` extracts nothing and sets eof when it meets the end; on a
stream that is not good it never reaches the end, so it sets fail and leaves eof alone. A loop of reads
guarded by `eof` and closed by a `peek` is decided by these three facts: a good stream with enough bytes
stays good (`read_ofBytes`), one with too few is `exhausted` (`read_ofBytes_short`), and an exhausted one
never changes again. A stream that failed before its end (`Stuck`) stays that way under every read and `peek`.
-/

/-- The unread bytes of a stream and its state flags. -/
structure IStream where
  rest : List UInt8
  eofbit : Bool
  failbit : Bool
  badbit : Bool
deriving DecidableEq, Repr

namespace IStream

/-- A good stream over the bytes. -/
def ofBytes (bytes : List UInt8) : IStream := ⟨bytes, false, false, false⟩

/-- A stream whose file could not be opened. -/
def closed : IStream := ⟨[], false, true, false⟩

/-- A stream after a read that met the end. -/
def exhausted : IStream := ⟨[], true, true, false⟩

def good (s : IStream) : Bool := !s.eofbit && !s.failbit && !s.badbit

def eof (s : IStream) : Bool := s.eofbit

def bad (s : IStream) : Bool := s.badbit

/-- `read(ptr, n)`: the bytes extracted, at most `n`, and the stream after it. -/
def read (s : IStream) (n : Nat) : List UInt8 × IStream :=
  if s.good then
    if n ≤ s.rest.length then (s.rest.take n, { s with rest := s.rest.drop n })
    else (s.rest, { s with rest := [], eofbit := true, failbit := true })
  else ([], { s with failbit := true })

/-- `peek()`, of which only the flags are used. -/
def peek (s : IStream) : IStream :=
  if s.good then if s.rest = [] then { s with eofbit := true } else s
  else { s with failbit := true }

/-- `seekg(offset)` on a stream nothing has been read from. -/
def seekg (s : IStream) (offset : Nat) : IStream :=
  if s.failbit || s.badbit then s else { s with rest := s.rest.drop offset, eofbit := false }

@[simp] theorem eof_ofBytes (bytes : List UInt8) : (ofBytes bytes).eof = false := rfl

@[simp] theorem bad_ofBytes (bytes : List UInt8) : (ofBytes bytes).bad = false := rfl

@[simp] theorem eof_exhausted : exhausted.eof = true := rfl

@[simp] theorem peek_exhausted : exhausted.peek = exhausted := rfl

@[simp] theorem read_exhausted (n : Nat) : exhausted.read n = ([], exhausted) := rfl

@[simp] theorem read_closed (n : Nat) : closed.read n = ([], closed) := rfl

theorem seekg_ofBytes (bytes : List UInt8) (offset : Nat) :
    (ofBytes bytes).seekg offset = ofBytes (bytes.drop offset) := rfl

theorem read_ofBytes (head tail : List UInt8) {n : Nat} (hn : head.length = n) :
    (ofBytes (head ++ tail)).read n = (head, ofBytes tail) := by
  subst hn
  simp [read, good, ofBytes]

theorem read_ofBytes_short (bytes : List UInt8) {n : Nat} (hn : bytes.length < n) :
    (ofBytes bytes).read n = (bytes, exhausted) := by
  have hlt : ¬ n ≤ bytes.length := by omega
  simp [read, good, ofBytes, exhausted, hlt]

theorem peek_ofBytes_of_ne_nil {bytes : List UInt8} (h : bytes ≠ []) :
    (ofBytes bytes).peek = ofBytes bytes := by
  simp [peek, good, ofBytes, h]

theorem eof_peek_ofBytes_nil : (ofBytes []).peek.eof = true := rfl

theorem length_read_le (s : IStream) (n : Nat) : (s.read n).1.length ≤ n := by
  unfold read
  split
  · split
    · exact List.length_take_le n s.rest
    · rename_i hlt
      show s.rest.length ≤ n
      omega
  · exact Nat.zero_le n

theorem eq_ofBytes {s : IStream} (h : s.good = true) : s = ofBytes s.rest := by
  obtain ⟨rest, eofbit, failbit, badbit⟩ := s
  simp only [good, Bool.and_eq_true, Bool.not_eq_true'] at h
  obtain ⟨⟨rfl, rfl⟩, rfl⟩ := h
  rfl

/-! ### Failed streams -/

/-- The stream with its fail flag set. -/
def fail (s : IStream) : IStream := { s with failbit := true }

@[simp] theorem good_fail (s : IStream) : s.fail.good = false := by
  simp [good, fail]

@[simp] theorem eof_fail (s : IStream) : s.fail.eof = s.eof := rfl

@[simp] theorem fail_fail (s : IStream) : s.fail.fail = s.fail := rfl

theorem read_of_not_good {s : IStream} (h : s.good = false) (n : Nat) : s.read n = ([], s.fail) := by
  unfold read
  rw [if_neg (by rw [h]; exact Bool.false_ne_true)]
  rfl

theorem peek_of_not_good {s : IStream} (h : s.good = false) : s.peek = s.fail := by
  unfold peek
  rw [if_neg (by rw [h]; exact Bool.false_ne_true)]
  rfl

/-- Not good, and not at the end. -/
def Stuck (s : IStream) : Prop := s.good = false ∧ s.eof = false

theorem Stuck.fail {s : IStream} (h : s.Stuck) : s.fail.Stuck := ⟨s.good_fail, h.2⟩

/-! ### Variables -/

/-- What a variable holds once the bytes were read over it, as many as there are and as it has room for. -/
def overwritten (bytes dst : List UInt8) : List UInt8 := bytes.take dst.length ++ dst.drop bytes.length

@[simp] theorem length_overwritten (bytes dst : List UInt8) : (overwritten bytes dst).length = dst.length := by
  rw [overwritten, List.length_append, List.length_take, List.length_drop]
  omega

@[simp] theorem overwritten_nil (dst : List UInt8) : overwritten [] dst = dst := by
  rw [overwritten, List.take_nil, List.nil_append, List.length_nil, List.drop_zero]

/-- Two variables that are read one after the other are overwritten as one. -/
theorem overwritten_append (bytes left right : List UInt8) :
    overwritten bytes (left ++ right) = overwritten bytes left ++ overwritten (bytes.drop left.length) right := by
  unfold overwritten
  rw [List.length_append, List.take_add, List.drop_append, List.length_drop]
  rcases Nat.le_total bytes.length left.length with hle | hle
  · rw [List.drop_eq_nil_of_le hle, List.take_nil, List.append_nil, Nat.sub_eq_zero_of_le hle, List.nil_append,
      List.drop_zero, List.append_assoc]
  · rw [List.drop_eq_nil_of_le hle, List.nil_append, List.append_nil, List.append_assoc]

theorem overwritten_of_isPrefix {bytes dst : List UInt8} (h : bytes <+: dst) : overwritten bytes dst = dst := by
  obtain ⟨rest, rfl⟩ := h
  rw [overwritten, List.take_of_length_le (by simp), List.drop_left]

/-- The bytes are left to be read, or none are left and no read gets any. -/
def Unread (s : IStream) (bytes : List UInt8) : Prop := s = ofBytes bytes ∨ bytes = [] ∧ s.good = false

theorem unread_ofBytes (bytes : List UInt8) : (ofBytes bytes).Unread bytes := Or.inl rfl

theorem Unread.read {s : IStream} {bytes : List UInt8} (h : s.Unread bytes) (n : Nat) :
    (s.read n).1 = bytes.take n ∧ (s.read n).2.Unread (bytes.drop n) := by
  rcases h with rfl | ⟨rfl, hgood⟩
  · rcases Nat.lt_or_ge bytes.length n with hshort | hlong
    · rw [read_ofBytes_short bytes hshort, List.take_of_length_le (Nat.le_of_lt hshort),
        List.drop_eq_nil_of_le (Nat.le_of_lt hshort)]
      exact ⟨rfl, Or.inr ⟨rfl, rfl⟩⟩
    · have hread := read_ofBytes (bytes.take n) (bytes.drop n) (List.length_take_of_le hlong)
      rw [List.take_append_drop] at hread
      rw [hread]
      exact ⟨rfl, unread_ofBytes _⟩
  · rw [read_of_not_good hgood, List.take_nil, List.drop_nil]
    exact ⟨rfl, Or.inr ⟨rfl, s.good_fail⟩⟩

end IStream
