import Mathlib.Data.UInt
import Mathlib.Tactic.Ring

/-!
# Fixed-width little-endian integers

`encodeLE w n` is what writing the first `w` bytes of an unsigned integer variable holding `n` produces
on a little-endian machine, and `decodeLE` is the value a variable holds after its bytes were read back.
The width is a parameter: `w = 1, 4, 8` are the machine widths, and a field of two adjacent words is the
concatenation of two encodings.
-/

namespace LittleEndian

/-- The low `w` bytes of `n`, least significant first. -/
def encodeLE : Nat → Nat → List UInt8
  | 0, _ => []
  | w + 1, n => UInt8.ofNat n :: encodeLE w (n / 256)

/-- The number whose bytes, least significant first, are the list. -/
def decodeLE : List UInt8 → Nat
  | [] => 0
  | byte :: bytes => byte.toNat + 256 * decodeLE bytes

@[simp] theorem length_encodeLE (w n : Nat) : (encodeLE w n).length = w := by
  induction w generalizing n with
  | zero => rfl
  | succ w ih => simp [encodeLE, ih]

@[simp] theorem decodeLE_nil : decodeLE [] = 0 := rfl

theorem decodeLE_lt (bytes : List UInt8) : decodeLE bytes < 256 ^ bytes.length := by
  induction bytes with
  | nil => simp
  | cons byte bytes ih =>
    have hbyte : byte.toNat < 256 := byte.toNat_lt
    rw [decodeLE, List.length_cons, pow_succ]
    omega

theorem decodeLE_append (left right : List UInt8) :
    decodeLE (left ++ right) = decodeLE left + 256 ^ left.length * decodeLE right := by
  induction left with
  | nil => simp
  | cons byte left ih =>
    rw [List.cons_append, decodeLE, decodeLE, ih, List.length_cons, pow_succ]
    ring

theorem decodeLE_replicate_zero (w : Nat) : decodeLE (List.replicate w 0) = 0 := by
  induction w with
  | zero => rfl
  | succ w ih => simp [List.replicate_succ, decodeLE, ih]

/-- Reading back `w` bytes gives the number modulo the width. -/
theorem decodeLE_encodeLE (w n : Nat) : decodeLE (encodeLE w n) = n % 256 ^ w := by
  induction w generalizing n with
  | zero => simp [encodeLE, Nat.mod_one]
  | succ w ih =>
    have hbyte : (UInt8.ofNat n).toNat = n % 256 := UInt8.toNat_ofNat'
    rw [encodeLE, decodeLE, ih, hbyte, pow_succ', Nat.mod_mul]

theorem decodeLE_encodeLE_of_lt {w n : Nat} (h : n < 256 ^ w) : decodeLE (encodeLE w n) = n := by
  rw [decodeLE_encodeLE, Nat.mod_eq_of_lt h]

theorem encodeLE_decodeLE (bytes : List UInt8) : encodeLE bytes.length (decodeLE bytes) = bytes := by
  induction bytes with
  | nil => rfl
  | cons byte bytes ih =>
    have hlt : byte.toNat < 256 := byte.toNat_lt
    have hbyte : UInt8.ofNat (byte.toNat + 256 * decodeLE bytes) = byte := by
      apply UInt8.toNat_inj.mp
      rw [UInt8.toNat_ofNat']
      omega
    have hrest : (byte.toNat + 256 * decodeLE bytes) / 256 = decodeLE bytes := by omega
    rw [decodeLE, List.length_cons, encodeLE, hbyte, hrest, ih]

theorem encodeLE_decodeLE_of_length {bytes : List UInt8} {n : Nat} (h : bytes.length = n) :
    encodeLE n (decodeLE bytes) = bytes := by
  rw [← h, encodeLE_decodeLE]

@[simp] theorem decodeLE_singleton (byte : UInt8) : decodeLE [byte] = byte.toNat := by
  simp [decodeLE]

@[simp] theorem decodeLE_encodeLE_uint32 (word : UInt32) :
    decodeLE (encodeLE 4 word.toNat) = word.toNat :=
  decodeLE_encodeLE_of_lt word.toNat_lt

@[simp] theorem decodeLE_encodeLE_uint64 (word : UInt64) :
    decodeLE (encodeLE 8 word.toNat) = word.toNat :=
  decodeLE_encodeLE_of_lt word.toNat_lt

theorem take_encodeLE {w count : Nat} (n : Nat) (h : count ≤ w) : (encodeLE w n).take count = encodeLE count n := by
  induction w generalizing n count with
  | zero =>
    obtain rfl : count = 0 := Nat.le_zero.mp h
    rfl
  | succ w ih =>
    cases count with
    | zero => rfl
    | succ count => rw [encodeLE, List.take_succ_cons, ih (n / 256) (Nat.le_of_succ_le_succ h), encodeLE]

/-- A cut encoding followed by zero bytes never reads back as more than the number. -/
theorem decodeLE_take_le (w n count : Nat) : decodeLE ((encodeLE w n).take count) ≤ n := by
  induction w generalizing n count with
  | zero => simp [encodeLE]
  | succ w ih =>
    cases count with
    | zero => simp
    | succ count =>
      have hrest := ih (n / 256) count
      have hbyte : (UInt8.ofNat n).toNat = n % 256 := UInt8.toNat_ofNat'
      rw [encodeLE, List.take_succ_cons, decodeLE, hbyte]
      omega

theorem decodeLE_append_zeros (bytes : List UInt8) (w : Nat) :
    decodeLE (bytes ++ List.replicate w 0) = decodeLE bytes := by
  rw [decodeLE_append, decodeLE_replicate_zero]
  omega

theorem encodeLE_zero (w : Nat) : encodeLE w 0 = List.replicate w 0 := by
  induction w with
  | zero => rfl
  | succ w ih => rw [encodeLE, Nat.zero_div, ih]; rfl

end LittleEndian
