import Mathlib.Order.Basic
import Mathlib.Data.UInt
import OmxDb.Lib.LittleEndian
import OmxDb.Lib.InputStream

/-!
# Keys, strings, faults and raw reads

The data every layer of the store shares. A `Fault` is everything that keeps a call from returning: the
exceptions the code throws (its own `std::runtime_error`s, and the `std::length_error` or `std::bad_alloc` of an
oversized `resize`), and, kept apart from them, undefined behaviour (a read past a variable, a null pointer) and a
loop that never ends. Enumerations with a fixed underlying type hold any value of that type, so they are
their code, with the enumerators as constants.
-/

namespace OmxDb

open LittleEndian

/-- `omx::Key`. -/
structure Key where
  id : UInt64
deriving DecidableEq, Repr

/-- `Key::operator<` compares the ids. -/
instance : LinearOrder Key :=
  LinearOrder.lift' (fun key => key.id.toNat) fun a b h => by
    cases a
    cases b
    simpa [UInt64.toNat_inj] using h

theorem Key.le_iff {a b : Key} : a ≤ b ↔ a.id.toNat ≤ b.id.toNat := Iff.rfl

/-- A pair of 64-bit words. -/
abbrev UInt128 := UInt64 × UInt64

/-- `std::string` as a byte container; no implementation has a longer one than `2 ^ 63 - 1`. -/
@[ext] structure ByteString where
  bytes : List UInt8
  size_lt : bytes.length < 2 ^ 63
deriving DecidableEq

namespace ByteString

def empty : ByteString := ⟨[], by decide⟩

theorem length_single_lt (byte : UInt8) : [byte].length < 2 ^ 63 := by
  rw [List.length_singleton]
  decide

/-- `std::string(1, byte)`. -/
def single (byte : UInt8) : ByteString := ⟨[byte], length_single_lt byte⟩

theorem length_zeros_lt {n : Nat} (h : n < 2 ^ 63) : (List.replicate n (0 : UInt8)).length < 2 ^ 63 := by
  rwa [List.length_replicate]

/-- `n` zero bytes. -/
def zeros (n : Nat) (h : n < 2 ^ 63) : ByteString := ⟨List.replicate n 0, length_zeros_lt h⟩

def size (s : ByteString) : Nat := s.bytes.length

@[simp] theorem size_zeros (n : Nat) (h : n < 2 ^ 63) : (zeros n h).size = n := List.length_replicate

theorem size_lt_word (s : ByteString) : s.size < 256 ^ 8 :=
  lt_trans s.size_lt (by decide)

end ByteString

/-- Why a call did not return normally. -/
inductive Fault where
  | runtimeError (what : String)
  | lengthError
  | badAlloc
  | bufferOverflow
  | nullPointer
  | diverges
deriving DecidableEq, Repr

/-- The faults that are C++ exceptions derived from `std::exception`. -/
def Fault.isException : Fault → Bool
  | .runtimeError _ => true
  | .lengthError => true
  | .badAlloc => true
  | _ => false

/-- `stream.read(reinterpret_cast<char*>(&variable), n)`: the bytes extracted overwrite the first bytes of
the variable `dst`; more of them than the variable holds run past it. -/
def readInto (s : IStream) (dst : List UInt8) (n : Nat) : Except Fault (List UInt8 × IStream) :=
  let (bytes, s') := s.read n
  if bytes.length ≤ dst.length then .ok (bytes ++ dst.drop bytes.length, s') else .error .bufferOverflow

/-- `value.resize(n); stream.read(value.data(), n)`. -/
def readString (s : IStream) (n : Nat) : Except Fault (ByteString × IStream) :=
  if hn : n < 2 ^ 63 then
    .ok (⟨(s.read n).1 ++ List.replicate (n - (s.read n).1.length) 0, by
      have := s.length_read_le n
      rw [List.length_append, List.length_replicate]
      omega⟩, (s.read n).2)
  else .error .lengthError

theorem readInto_ofBytes {head tail dst : List UInt8} {n : Nat} (hn : head.length = n)
    (hdst : dst.length = n) :
    readInto (IStream.ofBytes (head ++ tail)) dst n = .ok (head, IStream.ofBytes tail) := by
  simp [readInto, IStream.read_ofBytes head tail hn, hn, hdst]

theorem readByte_ofBytes (byte : UInt8) (tail : List UInt8) {dst : List UInt8} (hdst : dst.length = 1) :
    readInto (IStream.ofBytes (byte :: tail)) dst 1 = .ok ([byte], IStream.ofBytes tail) :=
  readInto_ofBytes (show [byte].length = 1 from rfl) hdst

theorem readInto_ofBytes_short {bytes dst : List UInt8} {n : Nat} (hn : bytes.length < n)
    (hdst : bytes.length ≤ dst.length) :
    readInto (IStream.ofBytes bytes) dst n
      = .ok (bytes ++ dst.drop bytes.length, IStream.exhausted) := by
  simp [readInto, IStream.read_ofBytes_short bytes hn, hdst]

@[simp] theorem readInto_exhausted (dst : List UInt8) (n : Nat) :
    readInto IStream.exhausted dst n = .ok (dst, IStream.exhausted) := by
  simp [readInto]

theorem readInto_isOk (s : IStream) (dst : List UInt8) {n : Nat} (h : n ≤ dst.length) :
    ∃ result, readInto s dst n = .ok result := by
  unfold readInto
  have hlen := s.length_read_le n
  dsimp only
  rw [if_pos (by omega)]
  exact ⟨_, rfl⟩

theorem readString_ofBytes {head tail : List UInt8} {n : Nat} (hn : head.length = n)
    (hlt : n < 2 ^ 63) :
    readString (IStream.ofBytes (head ++ tail)) n
      = .ok (⟨head, hn ▸ hlt⟩, IStream.ofBytes tail) := by
  rw [readString, dif_pos hlt]
  simp [IStream.read_ofBytes head tail hn, hn]

theorem readString_ofBytes_short {bytes : List UInt8} {n : Nat} (hn : bytes.length < n)
    (hlt : n < 2 ^ 63) :
    ∃ value, readString (IStream.ofBytes bytes) n = .ok (value, IStream.exhausted) := by
  rw [readString, dif_pos hlt]
  simp [IStream.read_ofBytes_short bytes hn]

theorem readString_exhausted {n : Nat} (hlt : n < 2 ^ 63) :
    ∃ value, readString IStream.exhausted n = .ok (value, IStream.exhausted) := by
  rw [readString, dif_pos hlt]
  exact ⟨_, rfl⟩

end OmxDb
