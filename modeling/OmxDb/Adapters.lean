import OmxDb.Compression

/-!
# Oversized values and damaged data

Two guards of the adapters, and what they let through. The LZ4 adapter leaves it to the library to refuse a value
that is too long, and passes its size as an `int`: what is refused is a remainder modulo `2 ^ 32`
(`rejected_iff`). On the way back each adapter has its own way to fail. Without a checksum they see any bytes
(`StoredRow`): Snappy's success flag is dropped, and the LZ4 adapter reads a header of eight bytes before it knows
that there are eight, and never compares it with the number of bytes that came out (`damageCaught_iff`).
-/

namespace OmxDb

open LittleEndian StorageEngine

/-! ### Oversized values -/

/-- `compress` throws. -/
def Rejected (P : Platform) (value : ByteString) : Prop :=
  ∃ what, LZ4CompressionAdapter.compress P value = .error (.runtimeError what)

/-- A value of any size is rejected if and only if the size is above the maximal input size modulo `2 ^ 32`. -/
theorem rejected_iff {P : Platform} (h : P.lz4.Documented) (value : ByteString) :
    Rejected P value ↔ 0x7E000000 < value.size % 2 ^ 32 := by
  constructor
  · rintro ⟨what, hcompress⟩
    by_contra hsize
    obtain ⟨compressed, haccept, -, -⟩ := lz4_accepts h (not_lt.mp hsize)
    rw [haccept] at hcompress
    cases hcompress
  · intro hsize
    exact ⟨_, lz4_refuses h hsize⟩

theorem max_input_size_lt : 0x7E000001 < 2 ^ 63 := by decide

theorem rejected_one_more : Rejected lz4Platform (ByteString.zeros 0x7E000001 max_input_size_lt) := by
  refine (rejected_iff documented_literalLz4 _).mpr ?_
  rw [ByteString.size_zeros]
  decide

theorem four_gib_and_one_lt : 2 ^ 32 + 1 < 2 ^ 63 := by decide

/-- Of `2 ^ 32 + 1` bytes the last 32 bits of the size are 1: one byte is compressed and comes back. -/
theorem not_rejected_long :
    0x7E000000 < (ByteString.zeros (2 ^ 32 + 1) four_gib_and_one_lt).size ∧
      ¬ Rejected lz4Platform (ByteString.zeros (2 ^ 32 + 1) four_gib_and_one_lt) ∧
      ∃ compressed read,
        LZ4CompressionAdapter.compress lz4Platform (ByteString.zeros (2 ^ 32 + 1) four_gib_and_one_lt)
          = .ok compressed ∧
        LZ4CompressionAdapter.uncompress lz4Platform compressed = .ok read ∧ read.size = 1 := by
  have hsize := ByteString.size_zeros (2 ^ 32 + 1) four_gib_and_one_lt
  generalize ByteString.zeros (2 ^ 32 + 1) four_gib_and_one_lt = value at hsize ⊢
  have hmod : value.size % 2 ^ 32 = 1 := by omega
  have haccepts : value.size % 2 ^ 32 ≤ 0x7E000000 := by omega
  have hresizes : lz4Platform.Resizes value.size := by
    rw [hsize]
    decide
  obtain ⟨compressed, hcompress, huncompress, -⟩ := lz4_accepts (P := lz4Platform) documented_literalLz4 haccepts
  have huncompress := huncompress hresizes
  have hlength := length_take_word value
  rw [hmod] at huncompress hlength
  have hlt : (value.bytes.take 1).length < 2 ^ 63 := by omega
  refine ⟨by omega, ?_, compressed, ⟨value.bytes.take 1, hlt⟩, hcompress, ?_, hlength⟩
  · rintro ⟨what, hreject⟩
    rw [hcompress] at hreject
    cases hreject
  · rw [huncompress, if_neg (by decide)]
    exact dif_pos hlt

/-! ### Valid encodings -/

/-- What decompression says about what it wrote: a positive result counts the bytes. -/
def Lz4Library.CountsWritten (lz4 : Lz4Library) : Prop :=
  ∀ (block : List UInt8) (n capacity : Int32), 0 < (lz4.decompressSafe block n capacity).1.toInt →
    ((lz4.decompressSafe block n capacity).2.length : Int) = (lz4.decompressSafe block n capacity).1.toInt

/-- `snappy::Uncompress` leaves a string that a string can be. -/
def SnappyFits (P : Platform) : Prop :=
  ∀ compressed : ByteString, (P.snappyUncompress compressed.bytes).2.length < 2 ^ 63

/-- The data is an encoding of the value under the compressor: the value itself, what Snappy accepts and reads as
the value, or the size of the value before a block that LZ4 reads as the value. -/
def ValidEncoding (P : Platform) (compressionType : CompressionType) (compressed value : ByteString) : Prop :=
  if compressionType = .Snappy then P.snappyUncompress compressed.bytes = (true, value.bytes)
  else if compressionType = .LZ4 then ∃ block, compressed.bytes = encodeLE 8 value.size ++ block ∧
    block.length < 2 ^ 31 ∧ value.size < 2 ^ 31 ∧
    P.lz4.decompressSafe block (Int32.ofNat block.length) (Int32.ofNat value.size)
      = (Int32.ofNat value.size, value.bytes)
  else compressed = value

/-- The size an LZ4 header declares. -/
def declaredSize (compressed : ByteString) : Nat := decodeLE (compressed.bytes.take 8)

/-- What the library makes of the block behind the header, with a buffer of the declared size. -/
def readBlock (P : Platform) (compressed : ByteString) : Int32 × List UInt8 :=
  P.lz4.decompressSafe (compressed.bytes.drop 8) (Int32.ofNat (compressed.size - 8))
    (Int32.ofNat (declaredSize compressed))

/-- The library's result for the block. -/
def decompressedSize (P : Platform) (compressed : ByteString) : Int := (readBlock P compressed).1.toInt

/-- Under Snappy the library accepts the data; under LZ4 there is a whole header, and it declares a size that no string
can be given, or the library fails on the block, or the header declares what comes out of a block of less than
2 GiB. -/
def Checkable (P : Platform) (compressionType : CompressionType) (compressed : ByteString) : Prop :=
  (compressionType = .Snappy → (P.snappyUncompress compressed.bytes).1 = true) ∧
  (compressionType = .LZ4 → 8 ≤ compressed.size ∧ (¬ P.Resizes (declaredSize compressed) ∨
    decompressedSize P compressed ≤ 0 ∨
    decompressedSize P compressed = declaredSize compressed ∧ compressed.size - 8 < 2 ^ 31))

/-- The call throws, or returns a value the data is an encoding of. -/
def ThrowsOrDecodes (P : Platform) (compressionType : CompressionType) (compressed : ByteString) :
    Except Fault ByteString → Prop
  | .error fault => fault.isException = true
  | .ok value => ValidEncoding P compressionType compressed value

/-! ### Adapters on any data -/

theorem ofBytes_throwsOrDecodes_iff {P : Platform} {compressionType : CompressionType} {compressed : ByteString}
    {bytes : List UInt8} (h : bytes.length < 2 ^ 63) :
    ThrowsOrDecodes P compressionType compressed (ByteString.ofBytes bytes) ↔
      ValidEncoding P compressionType compressed ⟨bytes, h⟩ := by
  rw [show ByteString.ofBytes bytes = .ok ⟨bytes, h⟩ from dif_pos h]
  rfl

theorem snappy_throwsOrDecodes_iff {P : Platform} (hfits : SnappyFits P) (compressed : ByteString) :
    ThrowsOrDecodes P .Snappy compressed ((SnappyCompressionAdapter P).uncompress compressed) ↔
      (P.snappyUncompress compressed.bytes).1 = true := by
  refine (ofBytes_throwsOrDecodes_iff (hfits compressed)).trans ?_
  rw [ValidEncoding, if_pos rfl, Prod.ext_iff]
  exact and_iff_left rfl

theorem bytes_eq_header {compressed : ByteString} (hsize : 8 ≤ compressed.size) :
    compressed.bytes = encodeLE 8 (declaredSize compressed) ++ compressed.bytes.drop 8 := by
  have hlength : (compressed.bytes.take 8).length = 8 := List.length_take_of_le hsize
  rw [declaredSize, encodeLE_decodeLE_of_length hlength, List.take_append_drop]

theorem length_readBlock {P : Platform} (hcounts : P.lz4.CountsWritten) {compressed : ByteString}
    (hpos : ¬ decompressedSize P compressed ≤ 0) :
    ((readBlock P compressed).2.length : Int) = decompressedSize P compressed :=
  hcounts _ _ _ (not_le.mp hpos)

theorem lz4_uncompress_eq {P : Platform} (hcounts : P.lz4.CountsWritten) {compressed : ByteString}
    (hsize : 8 ≤ compressed.size) (hresizes : P.Resizes (declaredSize compressed)) :
    LZ4CompressionAdapter.uncompress P compressed =
      if decompressedSize P compressed ≤ 0 then
        .error (.runtimeError ("result " ++ toString (decompressedSize P compressed)
          ++ " indicates a failure trying to uncompress the data."))
      else ByteString.ofBytes (readBlock P compressed).2 := by
  have hblock : (compressed.bytes.drop 8).length = compressed.size - 8 := List.length_drop
  have hrun : P.lz4.decompressSafe (compressed.bytes.drop 8) (Int32.ofInt (compressed.bytes.drop 8).length)
      (Int32.ofNat (declaredSize compressed)) = ((readBlock P compressed).1, (readBlock P compressed).2) := by
    rw [hblock]
    rfl
  rw [lz4_uncompress (bytes_eq_header hsize) hresizes hrun]
  change (if decompressedSize P compressed ≤ 0 then _ else _) = _
  split_ifs with hfail
  · rfl
  · have hwritten := length_readBlock hcounts hfail
    have hcount : (readBlock P compressed).1.toInt.toNat = (readBlock P compressed).2.length := by
      change (decompressedSize P compressed).toNat = _
      omega
    rw [hcount, shrinkTo_length]

theorem lz4_validEncoding_iff {P : Platform} {compressed value : ByteString} (hsize : 8 ≤ compressed.size)
    (hvalue : value.bytes = (readBlock P compressed).2)
    (hcount : (value.size : Int) = decompressedSize P compressed) :
    ValidEncoding P .LZ4 compressed value ↔
      decompressedSize P compressed = declaredSize compressed ∧ compressed.size - 8 < 2 ^ 31 := by
  have hblock : (compressed.bytes.drop 8).length = compressed.size - 8 := List.length_drop
  have hlt : decompressedSize P compressed < 2 ^ 31 := Int32.toInt_lt _
  rw [ValidEncoding, if_neg (by decide), if_pos rfl]
  constructor
  · rintro ⟨block, hbytes, hshort, -, -⟩
    have hheader : declaredSize compressed = value.size := by
      rw [declaredSize, hbytes, List.take_left' (length_encodeLE 8 value.size)]
      exact decodeLE_encodeLE_of_lt value.size_lt_word
    have hdrop : compressed.bytes.drop 8 = block := by
      rw [hbytes]
      exact List.drop_left' (length_encodeLE 8 value.size)
    rw [hdrop] at hblock
    omega
  · rintro ⟨hdeclared, hshort⟩
    have hheader : declaredSize compressed = value.size := by omega
    refine ⟨compressed.bytes.drop 8, ?_, by omega, by omega, ?_⟩
    · rw [← hheader]
      exact bytes_eq_header hsize
    · rw [hblock, hvalue, ← hheader]
      change readBlock P compressed = _
      refine Prod.ext_iff.mpr ⟨?_, rfl⟩
      apply Int32.toInt_inj.mp
      change decompressedSize P compressed = _
      rw [toInt_ofNat_eq, Int.bmod_def]
      split_ifs <;> omega

theorem declaredSize_lt (compressed : ByteString) : declaredSize compressed < 256 ^ 8 := by
  refine lt_of_lt_of_le (decodeLE_lt _) (Nat.pow_le_pow_right (by decide) ?_)
  rw [List.length_take]
  omega

theorem lz4_throwsOrDecodes_iff {P : Platform} (hcounts : P.lz4.CountsWritten) {compressed : ByteString}
    (hsize : 8 ≤ compressed.size) :
    ThrowsOrDecodes P .LZ4 compressed ((LZ4CompressionAdapter P).uncompress compressed) ↔
      ¬ P.Resizes (declaredSize compressed) ∨ decompressedSize P compressed ≤ 0 ∨
        decompressedSize P compressed = declaredSize compressed ∧ compressed.size - 8 < 2 ^ 31 := by
  change ThrowsOrDecodes P .LZ4 compressed (LZ4CompressionAdapter.uncompress P compressed) ↔ _
  by_cases hresizes : P.Resizes (declaredSize compressed)
  · rw [lz4_uncompress_eq hcounts hsize hresizes, or_iff_right (not_not.mpr hresizes)]
    split_ifs with hfail
    · exact iff_of_true rfl (Or.inl hfail)
    · have hwritten := length_readBlock hcounts hfail
      have hlt : decompressedSize P compressed < 2 ^ 31 := Int32.toInt_lt _
      rw [or_iff_right hfail, ofBytes_throwsOrDecodes_iff (by omega)]
      exact lz4_validEncoding_iff hsize rfl hwritten
  · obtain ⟨fault, hfault, hexception⟩ :=
      lz4_uncompress_oversized (bytes_eq_header hsize) (declaredSize_lt compressed) hresizes
    rw [hfault]
    exact iff_of_true hexception (Or.inl hresizes)

/-- Whatever the data, the adapter of the type throws or decodes, and has a header to read, exactly where the
data can be checked. -/
theorem uncompress_iff {P : Platform} (hfits : SnappyFits P) (hcounts : P.lz4.CountsWritten)
    (compressionType : CompressionType) (compressed : ByteString) :
    ThrowsOrDecodes P compressionType compressed ((createCompressor P compressionType).uncompress compressed) ∧
        (compressionType = .LZ4 → 8 ≤ compressed.size) ↔
      Checkable P compressionType compressed := by
  have hdirect (hsnappy : compressionType ≠ .Snappy) (hlz4 : compressionType ≠ .LZ4) :
      ThrowsOrDecodes P compressionType compressed (NoCompression.uncompress compressed) ∧
        (compressionType = .LZ4 → 8 ≤ compressed.size) ↔ Checkable P compressionType compressed := by
    refine iff_of_true ⟨?_, fun h => absurd h hlz4⟩ ⟨fun h => absurd h hsnappy, fun h => absurd h hlz4⟩
    change ValidEncoding P compressionType compressed compressed
    rw [ValidEncoding, if_neg hsnappy, if_neg hlz4]
  unfold createCompressor
  split_ifs with hnone hsnappy hlz4
  · exact hdirect (by rw [hnone]; decide) (by rw [hnone]; decide)
  · have hne : CompressionType.Snappy ≠ .LZ4 := by decide
    rw [hsnappy, Checkable, snappy_throwsOrDecodes_iff hfits]
    simp only [hne, false_implies, and_true, forall_const]
  · have hne : CompressionType.LZ4 ≠ .Snappy := by decide
    rw [hlz4, Checkable]
    simp only [hne, false_implies, true_and, forall_const]
    rw [and_comm]
    exact and_congr_right fun hsize => lz4_throwsOrDecodes_iff hcounts hsize
  · exact hdirect hsnappy hlz4

/-! ### A get on damaged data -/

/-- A lookup of the key finds the data, whose checksum matches, in a store with the compressor and the hasher of
the types. -/
structure StoredRow (P : Platform) (s : Store) (compressionType : CompressionType) (hashType : HashType) (key : Key)
    (compressed : ByteString) : Prop where
  compressor : s.engine.compressor = some (createCompressor P compressionType)
  hasher : s.engine.hasher = createHasher P hashType
  found : ∃ hasher, createHasher P hashType = some hasher ∧
    (findInMemory s key = some (compressed, hasher.hash compressed) ∨ findInMemory s key = none ∧
      findOnDisk P s key = .ok (some (compressed, hasher.hash compressed)))

theorem StoredRow.get {P : Platform} {s : Store} {compressionType : CompressionType} {hashType : HashType} {key : Key}
    {compressed : ByteString} (h : StoredRow P s compressionType hashType key compressed) :
    get P s key = ((createCompressor P compressionType).uncompress compressed).map some := by
  obtain ⟨hasher, hhasher, hfound⟩ := h.found
  have hfinish : finishGet s.engine (some (compressed, hasher.hash compressed))
      = ((createCompressor P compressionType).uncompress compressed).map some := by
    simp only [finishGet, h.hasher, hhasher, h.compressor, ne_eq, not_true_eq_false, if_false]
  unfold StorageEngine.get
  rcases hfound with hmemory | ⟨hmemory, hdisk⟩
  · rw [hmemory]
    exact hfinish
  · rw [hmemory, hdisk]
    exact hfinish

/-- A get throws, or returns true with a value the stored data encodes; reading the data takes no more from the size
of the header than the data has. -/
def DamageCaught (P : Platform) (s : Store) (compressionType : CompressionType) (key : Key)
    (compressed : ByteString) : Prop :=
  ((∃ fault, get P s key = .error fault ∧ fault.isException = true) ∨
    ∃ value, get P s key = .ok (some value) ∧ ValidEncoding P compressionType compressed value) ∧
  (compressionType = .LZ4 → 8 ≤ compressed.size)

/-- For every compressor and hasher and whatever data is stored under a matching checksum, a get catches the damage
if and only if the data can be checked. -/
theorem damageCaught_iff {P : Platform} (hfits : SnappyFits P) (hcounts : P.lz4.CountsWritten) {s : Store}
    {compressionType : CompressionType} {hashType : HashType} {key : Key} {compressed : ByteString}
    (h : StoredRow P s compressionType hashType key compressed) :
    DamageCaught P s compressionType key compressed ↔ Checkable P compressionType compressed := by
  rw [← uncompress_iff hfits hcounts, DamageCaught, h.get]
  refine and_congr_left fun _ => ?_
  cases (createCompressor P compressionType).uncompress compressed with
  | error fault => simp [Except.map, ThrowsOrDecodes]
  | ok value => simp [Except.map, ThrowsOrDecodes]

theorem snappyFits_lz4Platform : SnappyFits lz4Platform := fun compressed => compressed.size_lt

theorem countsWritten_literalLz4 : literalLz4.CountsWritten := by
  intro block n capacity
  unfold literalLz4
  dsimp only
  cases hread : readLiterals (block.take n.toInt.toNat) with
  | none =>
    intro hpos
    have hneg : 0 < (-1 : Int32).toInt := hpos
    exact absurd hneg (by decide)
  | some read =>
    obtain ⟨count, literals⟩ := read
    dsimp only
    split_ifs with hfits
    · intro _
      have hlt := Int32.toInt_lt capacity
      rw [hfits.1, toInt_ofNat_eq, Int.bmod_def]
      split_ifs <;> omega
    · intro hpos
      have hneg : 0 < (-1 : Int32).toInt := hpos
      exact absurd hneg (by decide)

theorem length_letterBlock_lt (declared : UInt8) :
    ([declared, 0, 0, 0, 0, 0, 0, 0, 16, 97] : List UInt8).length < 2 ^ 63 := by
  rw [show ([declared, 0, 0, 0, 0, 0, 0, 0, 16, 97] : List UInt8).length = 10 from rfl]
  decide

/-- The letter `a` in a block of two bytes, behind a header that declares this size. -/
def letterBlock (declared : UInt8) : ByteString :=
  ⟨[declared, 0, 0, 0, 0, 0, 0, 0, 16, 97], length_letterBlock_lt declared⟩

/-- The store of a row with this data and the checksum that is none, in memory. -/
def rowStore (P : Platform) (compressionType : CompressionType) (compressed : ByteString) : Store :=
  ⟨{}, {
    memTable := MemTable.put {} ⟨1⟩ compressed (0, 0)
    compressor := some (createCompressor P compressionType)
    hasher := createHasher P .NoHash }⟩

theorem storedRow_rowStore (P : Platform) (compressionType : CompressionType) (compressed : ByteString) :
    StoredRow P (rowStore P compressionType compressed) compressionType .NoHash ⟨1⟩ compressed where
  compressor := rfl
  hasher := rfl
  found := ⟨NoHash, rfl, Or.inl rfl⟩

theorem damageCaught_letter :
    DamageCaught lz4Platform (rowStore lz4Platform .LZ4 (letterBlock 1)) .LZ4 ⟨1⟩ (letterBlock 1) :=
  (damageCaught_iff snappyFits_lz4Platform countsWritten_literalLz4
    (storedRow_rowStore lz4Platform .LZ4 (letterBlock 1))).mpr
    ⟨by decide, fun _ => ⟨by decide, Or.inr (Or.inr ⟨by decide, by decide⟩)⟩⟩

/-- A log of one row with this data and the checksum that is none, in a directory with these options. -/
def damagedDisk (compressionType : CompressionType) (compressed : ByteString) : Disk where
  options := some (saveOptions { compressionType := compressionType, hashType := .NoHash })
  wal := some (serialize ⟨⟨1⟩, compressed, .Put, (0, 0)⟩)

/-- Replayed from a log: empty data, which Snappy refuses, is returned as the empty value; of one byte, the LZ4 header
is read past the end; and a header that declares two bytes before a block of one goes unnoticed. -/
theorem not_damageCaught_replayed :
    (∃ s : Store, «open» plainPlatform {} {} {} (damagedDisk .Snappy ByteString.empty) = (s.disk, .ok s.engine) ∧
      StoredRow plainPlatform s .Snappy .NoHash ⟨1⟩ ByteString.empty ∧
      get plainPlatform s ⟨1⟩ = .ok (some ByteString.empty) ∧
      ¬ DamageCaught plainPlatform s .Snappy ⟨1⟩ ByteString.empty) ∧
    (∃ s : Store, «open» lz4Platform {} {} {} (damagedDisk .LZ4 (.single 97))
        = (s.disk, .ok s.engine) ∧
      StoredRow lz4Platform s .LZ4 .NoHash ⟨1⟩ (.single 97) ∧
      get lz4Platform s ⟨1⟩ = .error .bufferOverflow ∧
      ¬ DamageCaught lz4Platform s .LZ4 ⟨1⟩ (.single 97)) ∧
    ∃ s : Store, «open» lz4Platform {} {} {} (damagedDisk .LZ4 (letterBlock 2)) = (s.disk, .ok s.engine) ∧
      StoredRow lz4Platform s .LZ4 .NoHash ⟨1⟩ (letterBlock 2) ∧
      get lz4Platform s ⟨1⟩ = .ok (some (.single 97)) ∧
      ¬ DamageCaught lz4Platform s .LZ4 ⟨1⟩ (letterBlock 2) := by
  refine ⟨?_, ?_, ?_⟩
  · refine ⟨⟨_, _⟩, rfl, ⟨rfl, rfl, NoHash, rfl, Or.inl rfl⟩, rfl, ?_⟩
    rintro ⟨⟨fault, hget, -⟩ | ⟨value, -, hvalid⟩, -⟩
    · cases hget
    · have hflag : false = true := congrArg Prod.fst hvalid
      cases hflag
  · refine ⟨⟨_, _⟩, rfl, ⟨rfl, rfl, NoHash, rfl, Or.inl rfl⟩, rfl, ?_⟩
    rintro ⟨-, hsize⟩
    exact absurd (hsize rfl) (by decide)
  · refine ⟨⟨_, _⟩, rfl, ⟨rfl, rfl, NoHash, rfl, Or.inl rfl⟩, rfl, ?_⟩
    rintro ⟨⟨fault, hget, -⟩ | ⟨value, hget, hvalid⟩, -⟩
    · cases hget
    · cases hget
      obtain ⟨block, hbytes, -⟩ := hvalid
      have hheader : ([2] : List UInt8) = [1] := congrArg (List.take 1) hbytes
      exact absurd hheader (by decide)

end OmxDb
