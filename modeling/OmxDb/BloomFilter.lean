import Mathlib.Data.List.OfFn
import Mathlib.Logic.Function.Basic
import OmxDb.Codec

/-!
# The bloom filter

`BloomFilter<FilterSize, NumHashes>`: one byte per bit. A key sets and tests the same `NumHashes` positions,
so a key that was added is always found (`probablyContains_add_self`), and since a set bit is never cleared
(`le_add`), so is every key added before.
-/

namespace OmxDb

open LittleEndian

structure BloomFilter (FilterSize NumHashes : Nat) where
  bits : Fin FilterSize → UInt8 := fun _ => 0

namespace BloomFilter

variable {FilterSize NumHashes : Nat} [NeZero FilterSize]

/-- `MurmurHash3_x64_128(&key, sizeof(key), 46, &hashValue)`. -/
def hash (P : Platform) (key : Key) : UInt128 := P.murmurHash3 (encodeLE 8 key.id.toNat) 46

/-- `(hash.first + index * hash.second) % m_bits.size()`, in 64-bit arithmetic. -/
def rehash (index : Nat) (hash : UInt128) : Fin FilterSize :=
  ⟨(hash.1 + UInt64.ofNat index * hash.2).toNat % FilterSize, Nat.mod_lt _ (NeZero.pos FilterSize)⟩

def setBits (hashValue : UInt128) : List Nat → (Fin FilterSize → UInt8) → Fin FilterSize → UInt8
  | [], bits => bits
  | i :: is, bits => setBits hashValue is (Function.update bits (rehash i hashValue) 1)

def add (P : Platform) (b : BloomFilter FilterSize NumHashes) (key : Key) :
    BloomFilter FilterSize NumHashes :=
  ⟨setBits (hash P key) (List.range NumHashes) b.bits⟩

def probablyContains (P : Platform) (b : BloomFilter FilterSize NumHashes) (key : Key) : Bool :=
  (List.range NumHashes).all fun i => b.bits (rehash i (hash P key)) ≠ 0

/-- The bytes `dump` writes to an open stream. -/
def dump (b : BloomFilter FilterSize NumHashes) : List UInt8 := List.ofFn b.bits

/-- `load` from an open stream over the bytes; what a short file does not reach keeps its value. -/
def load (b : BloomFilter FilterSize NumHashes) (bytes : List UInt8) :
    BloomFilter FilterSize NumHashes :=
  ⟨fun j => bytes.getD j (b.bits j)⟩

/-! ### No false negatives -/

/-- Every set bit of the one is set in the other. -/
def Le (b b' : BloomFilter FilterSize NumHashes) : Prop := ∀ j, b.bits j ≠ 0 → b'.bits j ≠ 0

omit [NeZero FilterSize] in
theorem Le.refl (b : BloomFilter FilterSize NumHashes) : b.Le b := fun _ h => h

omit [NeZero FilterSize] in
theorem Le.trans {b b' b'' : BloomFilter FilterSize NumHashes} (h : b.Le b') (h' : b'.Le b'') :
    b.Le b'' := fun j hj => h' j (h j hj)

theorem probablyContains_iff {P : Platform} {b : BloomFilter FilterSize NumHashes} {key : Key} :
    b.probablyContains P key = true ↔ ∀ i < NumHashes, b.bits (rehash i (hash P key)) ≠ 0 := by
  simp [probablyContains]

theorem Le.probablyContains {P : Platform} {b b' : BloomFilter FilterSize NumHashes} (h : b.Le b')
    {key : Key} (hkey : b.probablyContains P key = true) : b'.probablyContains P key = true :=
  probablyContains_iff.mpr fun i hi => h _ (probablyContains_iff.mp hkey i hi)

theorem setBits_ne_zero (hashValue : UInt128) (is : List Nat) {bits : Fin FilterSize → UInt8}
    {j : Fin FilterSize} (h : bits j ≠ 0) : setBits hashValue is bits j ≠ 0 := by
  induction is generalizing bits with
  | nil => exact h
  | cons i is ih =>
    refine ih ?_
    by_cases heq : j = rehash i hashValue
    · subst heq
      simp
    · rw [Function.update_of_ne heq]
      exact h

theorem setBits_rehash (hashValue : UInt128) {is : List Nat} (bits : Fin FilterSize → UInt8)
    {i : Nat} (hi : i ∈ is) : setBits hashValue is bits (rehash i hashValue) ≠ 0 := by
  induction is generalizing bits with
  | nil => simp at hi
  | cons head is ih =>
    rcases List.mem_cons.mp hi with rfl | hi
    · refine setBits_ne_zero hashValue is ?_
      simp
    · exact ih _ hi

theorem le_add (P : Platform) (b : BloomFilter FilterSize NumHashes) (key : Key) :
    b.Le (b.add P key) := fun _ h => setBits_ne_zero _ _ h

theorem probablyContains_add_self (P : Platform) (b : BloomFilter FilterSize NumHashes) (key : Key) :
    (b.add P key).probablyContains P key = true := by
  refine probablyContains_iff.mpr fun i hi => ?_
  exact setBits_rehash _ _ (List.mem_range.mpr hi)

/-- The keys added one after another. -/
def addAll (P : Platform) (b : BloomFilter FilterSize NumHashes) (keys : List Key) :
    BloomFilter FilterSize NumHashes :=
  keys.foldl (fun b key => b.add P key) b

theorem le_addAll (P : Platform) (b : BloomFilter FilterSize NumHashes) (keys : List Key) :
    b.Le (b.addAll P keys) := by
  induction keys generalizing b with
  | nil => exact Le.refl b
  | cons key keys ih => exact (le_add P b key).trans (ih _)

theorem probablyContains_addAll (P : Platform) (b : BloomFilter FilterSize NumHashes)
    {keys : List Key} {key : Key} (hkey : key ∈ keys) :
    (b.addAll P keys).probablyContains P key = true := by
  induction keys generalizing b with
  | nil => simp at hkey
  | cons head keys ih =>
    rcases List.mem_cons.mp hkey with rfl | hkey
    · exact (le_addAll P _ keys).probablyContains (probablyContains_add_self P b key)
    · exact ih _ hkey

/-! ### Bit by bit -/

/-- The positions of a key, in the order they are set and tested. -/
def positions (P : Platform) (NumHashes : Nat) (key : Key) : List (Fin FilterSize) :=
  (List.range NumHashes).map fun i => rehash i (hash P key)

def setBit (b : BloomFilter FilterSize NumHashes) (j : Fin FilterSize) : BloomFilter FilterSize NumHashes :=
  ⟨Function.update b.bits j 1⟩

omit [NeZero FilterSize] in
theorem le_setBit (b : BloomFilter FilterSize NumHashes) (j : Fin FilterSize) : b.Le (b.setBit j) := by
  intro i h
  show Function.update b.bits j 1 i ≠ 0
  by_cases heq : i = j
  · subst heq
    simp
  · rw [Function.update_of_ne heq]
    exact h

theorem add_eq_foldl (P : Platform) (b : BloomFilter FilterSize NumHashes) (key : Key) :
    b.add P key = (positions P NumHashes key).foldl setBit b := by
  unfold add positions
  obtain ⟨bits⟩ := b
  dsimp only
  generalize List.range NumHashes = is
  induction is generalizing bits with
  | nil => rfl
  | cons i is ih => exact ih _

theorem addAll_eq_foldl (P : Platform) (b : BloomFilter FilterSize NumHashes) (keys : List Key) :
    b.addAll P keys = (keys.flatMap fun key => positions P NumHashes key).foldl setBit b := by
  unfold addAll
  induction keys generalizing b with
  | nil => rfl
  | cons key keys ih => rw [List.foldl_cons, ih, add_eq_foldl, List.flatMap_cons, List.foldl_append]

theorem probablyContains_iff_positions {P : Platform} {b : BloomFilter FilterSize NumHashes} {key : Key} :
    b.probablyContains P key = true ↔ ∀ j ∈ positions P NumHashes key, b.bits j ≠ 0 := by
  rw [probablyContains_iff]
  simp [positions]

/-! ### Files -/

omit [NeZero FilterSize] in
theorem load_dump (b b' : BloomFilter FilterSize NumHashes) : b'.load b.dump = b := by
  cases b with
  | mk bits =>
    unfold load dump
    congr 1
    funext j
    simp [List.getD_eq_getElem?_getD]

omit [NeZero FilterSize] in
theorem bits_load_take (b b' : BloomFilter FilterSize NumHashes) {count : Nat} {j : Fin FilterSize}
    (hj : j.val < count) : (b'.load (b.dump.take count)).bits j = b.bits j := by
  unfold load dump
  simp [List.getD_eq_getElem?_getD, hj]

end BloomFilter

end OmxDb
