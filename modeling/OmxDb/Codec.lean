import Mathlib.Data.Int.Basic
import OmxDb.Types

/-!
# Options, compressors and hashers

`createCompressor` and `createHasher` pick an adapter by the option's code. The adapters over third-party
libraries call the functions of a `Platform`, which also holds what the language leaves open: the byte an
uninitialized `EntryType` variable happens to hold, the order in which an `unordered_map` iterates, and the sizes a
string can be given, of which only those below `2 ^ 32` are taken for granted.
-/

namespace OmxDb

open LittleEndian

/-! ### Options -/

structure CompressionType where
  code : UInt8
deriving DecidableEq, Repr

def CompressionType.NoCompression : CompressionType := ⟨0⟩
def CompressionType.Snappy : CompressionType := ⟨1⟩
def CompressionType.LZ4 : CompressionType := ⟨2⟩

structure HashType where
  code : UInt8
deriving DecidableEq, Repr

def HashType.NoHash : HashType := ⟨0⟩
def HashType.CityHash128 : HashType := ⟨1⟩
def HashType.MurmurHash3 : HashType := ⟨2⟩

structure Options where
  maxMemTableSize : UInt64 := 1 * 1024 * 1024
  maxWalBufferSize : UInt32 := 1 * 1024
  compressionType : CompressionType := CompressionType.LZ4
  hashType : HashType := HashType.CityHash128
deriving DecidableEq, Repr

/-! ### Third-party code and unspecified behaviour -/

/-- The three LZ4 entry points; the last two return their result code and the bytes they wrote. -/
structure Lz4Library where
  compressBound : Int32 → Int32
  compressDefault : List UInt8 → (srcSize dstCapacity : Int32) → Int32 × List UInt8
  decompressSafe : List UInt8 → (compressedSize dstCapacity : Int32) → Int32 × List UInt8

structure Platform where
  lz4 : Lz4Library
  snappyCompress : List UInt8 → List UInt8
  /-- The success flag and the final content of the output string. -/
  snappyUncompress : List UInt8 → Bool × List UInt8
  cityHash128 : List UInt8 → UInt128
  murmurHash3 : List UInt8 → (seed : UInt32) → UInt128
  /-- What an `EntryType` variable holds before anything was read into it. -/
  indeterminate : UInt8
  /-- The iteration order of an `unordered_map` with these keys. -/
  bucketOrder : List Key → List Key
  bucketOrder_perm : ∀ keys, (bucketOrder keys).Perm keys
  /-- `std::string::max_size()`. -/
  maxStringSize : Nat
  /-- Whether the memory for a string of this size can be had. -/
  allocates : Nat → Bool
  maxStringSize_lt : maxStringSize < 2 ^ 63
  allocates_small : ∀ n < 2 ^ 32, n ≤ maxStringSize ∧ allocates n = true

/-! ### Resizing -/

namespace Platform

variable (P : Platform)

/-- Whether `output.resize(n)` returns or throws. -/
def resize (n : Nat) : Except Fault Unit :=
  if P.maxStringSize < n then .error .lengthError
  else if P.allocates n then .ok () else .error .badAlloc

/-- A string can be given this size. -/
def Resizes (n : Nat) : Prop := n ≤ P.maxStringSize ∧ P.allocates n = true

instance (n : Nat) : Decidable (P.Resizes n) := inferInstanceAs (Decidable (_ ∧ _))

variable {P}

theorem resize_of_resizes {n : Nat} (h : P.Resizes n) : P.resize n = .ok () := by
  rw [resize, if_neg (not_lt.mpr h.1), if_pos h.2]

theorem resize_of_not {n : Nat} (h : ¬ P.Resizes n) :
    ∃ fault, P.resize n = .error fault ∧ fault.isException = true := by
  unfold resize
  split_ifs with hlong hmemory
  · exact ⟨.lengthError, rfl, rfl⟩
  · exact absurd ⟨not_lt.mp hlong, hmemory⟩ h
  · exact ⟨.badAlloc, rfl, rfl⟩

theorem Resizes.lt {n : Nat} (h : P.Resizes n) : n < 2 ^ 63 := lt_of_le_of_lt h.1 P.maxStringSize_lt

end Platform

/-! ### Compression -/

structure ICompression where
  compress : ByteString → Except Fault ByteString
  uncompress : ByteString → Except Fault ByteString

/-- The string with these bytes, where it is not longer than a string can be. -/
def ByteString.ofBytes (bytes : List UInt8) : Except Fault ByteString :=
  if h : bytes.length < 2 ^ 63 then .ok ⟨bytes, h⟩ else .error .lengthError

/-- `output.resize(n)` after a library call wrote `bytes` to a buffer of `capacity` zero bytes. -/
def shrinkTo (bytes : List UInt8) (capacity n : Nat) : List UInt8 :=
  (bytes ++ List.replicate (capacity - bytes.length) 0 ++ List.replicate n 0).take n

def NoCompression : ICompression where
  compress input := .ok input
  uncompress input := .ok input

def SnappyCompressionAdapter (P : Platform) : ICompression where
  compress input := ByteString.ofBytes (P.snappyCompress input.bytes)
  uncompress input := ByteString.ofBytes (P.snappyUncompress input.bytes).2

def LZ4CompressionAdapter.compress (P : Platform) (input : ByteString) : Except Fault ByteString :=
  let maxCompressedSize := (P.lz4.compressBound (Int32.ofNat input.size)).toInt
  if maxCompressedSize ≤ 0 then
    .error (.runtimeError ("Invalid input size for LZ4 compression: " ++ toString input.size))
  else
    let (compressedSize, bytes) := P.lz4.compressDefault input.bytes (Int32.ofNat input.size)
      (Int32.ofInt maxCompressedSize)
    if compressedSize.toInt ≤ 0 then
      .error (.runtimeError ("result " ++ toString compressedSize.toInt
        ++ " indicates a failure trying to compress the data."))
    else
      ByteString.ofBytes (encodeLE 8 input.size
        ++ shrinkTo bytes maxCompressedSize.toNat compressedSize.toInt.toNat)

/-- The size header is read through `c_str()`, which ends one byte after the string. The last `resize` is to less than
`2 ^ 31` bytes. -/
def LZ4CompressionAdapter.uncompress (P : Platform) (input : ByteString) : Except Fault ByteString :=
  if input.size + 1 < 8 then .error .bufferOverflow
  else
    let outputSize := decodeLE ((input.bytes ++ [0]).take 8)
    match P.resize outputSize with
    | .error fault => .error fault
    | .ok () =>
      let (decompressedSize, bytes) := P.lz4.decompressSafe (input.bytes.drop 8)
        (Int32.ofInt ((input.size : Int) - 8)) (Int32.ofNat outputSize)
      if decompressedSize.toInt ≤ 0 then
        .error (.runtimeError ("result " ++ toString decompressedSize.toInt
          ++ " indicates a failure trying to uncompress the data."))
      else ByteString.ofBytes (shrinkTo bytes outputSize decompressedSize.toInt.toNat)

def LZ4CompressionAdapter (P : Platform) : ICompression where
  compress := LZ4CompressionAdapter.compress P
  uncompress := LZ4CompressionAdapter.uncompress P

def createCompressor (P : Platform) (compressionType : CompressionType) : ICompression :=
  if compressionType = .NoCompression then NoCompression
  else if compressionType = .Snappy then SnappyCompressionAdapter P
  else if compressionType = .LZ4 then LZ4CompressionAdapter P
  else NoCompression

/-! ### Hashing -/

structure IHasher where
  hash : ByteString → UInt128

def NoHash : IHasher := ⟨fun _ => (0, 0)⟩

def CityHash128Adapter (P : Platform) : IHasher := ⟨fun data => P.cityHash128 data.bytes⟩

def MurmurHash3Adapter (P : Platform) : IHasher := ⟨fun data => P.murmurHash3 data.bytes 46⟩

/-- The null pointer, for a code that is none of the enumerators, is `none`. -/
def createHasher (P : Platform) (hashType : HashType) : Option IHasher :=
  if hashType = .NoHash then some NoHash
  else if hashType = .CityHash128 then some (CityHash128Adapter P)
  else if hashType = .MurmurHash3 then some (MurmurHash3Adapter P)
  else none

/-! ### A concrete platform -/

/-- The finalization mix of MurmurHash3. -/
def fmix64 (k : UInt64) : UInt64 :=
  let k := (k ^^^ (k >>> 33)) * 0xff51afd7ed558ccd
  let k := (k ^^^ (k >>> 33)) * 0xc4ceb9fe1a85ec53
  k ^^^ (k >>> 33)

def rotl64 (x r : UInt64) : UInt64 := (x <<< r) ||| (x >>> (64 - r))

/-- `MurmurHash3_x64_128` on inputs shorter than one 16-byte block. -/
def murmurHash3Short (bytes : List UInt8) (seed : UInt32) : UInt128 :=
  let c1 : UInt64 := 0x87c37b91114253d5
  let c2 : UInt64 := 0x4cf5ad432745937f
  let len := UInt64.ofNat bytes.length
  let k1 := UInt64.ofNat (decodeLE (bytes.take 8))
  let k2 := UInt64.ofNat (decodeLE (bytes.drop 8))
  let h1 := seed.toUInt64 ^^^ (rotl64 (k1 * c1) 31 * c2) ^^^ len
  let h2 := seed.toUInt64 ^^^ (rotl64 (k2 * c2) 33 * c1) ^^^ len
  let h1 := h1 + h2
  let h2 := h2 + h1
  let h1 := fmix64 h1
  let h2 := fmix64 h2
  let h1 := h1 + h2
  (h1, h2 + h1)

/-- A platform to run stores without compression and checksums on: the filter hash is MurmurHash3, maps
iterate in insertion order, an unread entry type happens to be a put, memory is never short, and no other library is
linked. -/
def plainPlatform : Platform where
  lz4 := ⟨fun _ => 0, fun _ _ _ => (0, []), fun _ _ _ => (0, [])⟩
  snappyCompress _ := []
  snappyUncompress _ := (false, [])
  cityHash128 _ := (0, 0)
  murmurHash3 := murmurHash3Short
  indeterminate := 0
  bucketOrder keys := keys
  bucketOrder_perm keys := List.Perm.refl keys
  maxStringSize := 2 ^ 62 - 1
  allocates _ := true
  maxStringSize_lt := by decide
  allocates_small n hn := ⟨by omega, rfl⟩

/-- No compression, no checksums, and a snapshot at every put. -/
def plainOptions : Options :=
  { maxMemTableSize := 0, compressionType := .NoCompression, hashType := .NoHash }

end OmxDb
