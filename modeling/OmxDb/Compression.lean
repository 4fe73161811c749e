import OmxDb.FilterHistory

/-!
# Reading values back

The LZ4 adapter writes the size of the original in eight bytes before the block, but hands it to the library as
a 32-bit `int`, and it takes the result zero for a failure on both sides. `lz4_cases` says what that does to a
value: the library refuses it, or the block holds the first `size % 2 ^ 32` bytes, which is not the value if it is
longer, and cannot be told from a failure if there are none. Under the other adapters every value comes back, and
what comes back from the adapter is what a `get` answers behind a `put` (`valueReadBack_iff`).
-/

namespace OmxDb

open LittleEndian StorageEngine

/-! ### The libraries -/

/-- What `lz4.h` says of the three functions for originals of up to `LZ4_MAX_INPUT_SIZE` bytes: the bound is
positive for these sizes only, compressing into that many bytes succeeds, and a buffer that can hold the original
gets it back, with its size as the result. -/
structure Lz4Library.Documented (lz4 : Lz4Library) : Prop where
  compressBound : ∀ n : Int32, 0 < (lz4.compressBound n).toInt ↔ 0 ≤ n.toInt ∧ n.toInt ≤ 0x7E000000
  compressDefault : ∀ (bytes : List UInt8) (n : Int32), 0 ≤ n.toInt → n.toInt ≤ 0x7E000000 →
    n.toInt ≤ bytes.length → 0 < (lz4.compressDefault bytes n (lz4.compressBound n)).1.toInt ∧
      ((lz4.compressDefault bytes n (lz4.compressBound n)).2.length : Int)
        = (lz4.compressDefault bytes n (lz4.compressBound n)).1.toInt
  decompressSafe : ∀ (bytes : List UInt8) (n capacity : Int32), 0 ≤ n.toInt → n.toInt ≤ 0x7E000000 →
    n.toInt ≤ bytes.length → n.toInt ≤ capacity.toInt →
      lz4.decompressSafe (lz4.compressDefault bytes n (lz4.compressBound n)).2
        (lz4.compressDefault bytes n (lz4.compressBound n)).1 capacity = (n, bytes.take n.toInt.toNat)

/-- `snappy::Uncompress` succeeds on what `snappy::Compress` wrote, with the original. -/
def SnappyRoundTrips (P : Platform) : Prop :=
  ∀ bytes, P.snappyUncompress (P.snappyCompress bytes) = (true, bytes)

theorem toInt_ofNat_eq (n : Nat) : (Int32.ofNat n).toInt = (n : Int).bmod (2 ^ 32) := by
  simp [Int32.toInt_ofNat']

theorem supported_iff (n : Nat) :
    (0 ≤ (Int32.ofNat n).toInt ∧ (Int32.ofNat n).toInt ≤ 0x7E000000) ↔ n % 2 ^ 32 ≤ 0x7E000000 := by
  rw [toInt_ofNat_eq, Int.bmod_def]
  split_ifs <;> omega

theorem toNat_toInt_of_supported {n : Nat} (h : n % 2 ^ 32 ≤ 0x7E000000) :
    (Int32.ofNat n).toInt = ((n % 2 ^ 32 : Nat) : Int) := by
  rw [toInt_ofNat_eq, Int.bmod_def]
  split_ifs <;> omega

/-! ### Adapters -/

/-- What the compressor accepts it gives back. -/
def ICompression.ReadsBack (compressor : ICompression) (value : ByteString) : Prop :=
  ∀ compressed, compressor.compress value = .ok compressed → compressor.uncompress compressed = .ok value

theorem ByteString.ofBytes_bytes (value : ByteString) : ByteString.ofBytes value.bytes = .ok value :=
  dif_pos value.size_lt

theorem ByteString.bytes_of_ofBytes {bytes : List UInt8} {value : ByteString}
    (h : ByteString.ofBytes bytes = .ok value) : value.bytes = bytes := by
  unfold ByteString.ofBytes at h
  split_ifs at h
  cases h
  rfl

theorem shrinkTo_length (bytes : List UInt8) (capacity : Nat) :
    shrinkTo bytes capacity bytes.length = bytes := by
  unfold shrinkTo
  rw [List.append_assoc]
  exact List.take_left

theorem readsBack_noCompression (value : ByteString) : NoCompression.ReadsBack value := by
  intro compressed h
  cases h
  rfl

theorem readsBack_snappy {P : Platform} (h : SnappyRoundTrips P) (value : ByteString) :
    (SnappyCompressionAdapter P).ReadsBack value := by
  intro compressed hcompress
  have hbytes := ByteString.bytes_of_ofBytes hcompress
  show ByteString.ofBytes (P.snappyUncompress compressed.bytes).2 = .ok value
  rw [hbytes, h value.bytes]
  exact value.ofBytes_bytes

theorem lz4_header {input : ByteString} {n : Nat} {block : List UInt8} (hinput : input.bytes = encodeLE 8 n ++ block)
    (hn : n < 256 ^ 8) : ¬ input.size + 1 < 8 ∧ decodeLE ((input.bytes ++ [0]).take 8) = n := by
  have hsize : input.size = 8 + block.length := by
    unfold ByteString.size
    rw [hinput, List.length_append, length_encodeLE]
  have hheader : (input.bytes ++ [0]).take 8 = encodeLE 8 n := by
    rw [hinput, List.append_assoc]
    exact List.take_left' (length_encodeLE 8 n)
  refine ⟨by omega, ?_⟩
  rw [hheader, decodeLE_encodeLE_of_lt hn]

theorem lz4_uncompress {P : Platform} {input : ByteString} {n : Nat} {block bytes : List UInt8} {result : Int32}
    (hinput : input.bytes = encodeLE 8 n ++ block) (hn : P.Resizes n)
    (hread : P.lz4.decompressSafe block (Int32.ofInt block.length) (Int32.ofNat n) = (result, bytes)) :
    LZ4CompressionAdapter.uncompress P input =
      if result.toInt ≤ 0 then .error (.runtimeError ("result " ++ toString result.toInt
        ++ " indicates a failure trying to uncompress the data."))
      else ByteString.ofBytes (shrinkTo bytes n result.toInt.toNat) := by
  obtain ⟨hlong, hheader⟩ := lz4_header hinput (lt_trans hn.lt (by decide))
  have hrest : input.bytes.drop 8 = block := by
    rw [hinput]
    exact List.drop_left' (length_encodeLE 8 n)
  have hblock : ((input.size : Int) - 8) = block.length := by
    have hlength : (input.bytes.drop 8).length = input.bytes.length - 8 := List.length_drop
    rw [hrest] at hlength
    unfold ByteString.size at hlong ⊢
    have hheld := congrArg List.length hinput
    rw [List.length_append, length_encodeLE] at hheld
    omega
  unfold LZ4CompressionAdapter.uncompress
  simp only [if_neg hlong, hheader, Platform.resize_of_resizes hn, hrest, hblock, hread]

theorem lz4_uncompress_oversized {P : Platform} {input : ByteString} {n : Nat} {block : List UInt8}
    (hinput : input.bytes = encodeLE 8 n ++ block) (hword : n < 256 ^ 8) (hn : ¬ P.Resizes n) :
    ∃ fault, LZ4CompressionAdapter.uncompress P input = .error fault ∧ fault.isException = true := by
  obtain ⟨hlong, hheader⟩ := lz4_header hinput hword
  obtain ⟨fault, hresize, hexception⟩ := Platform.resize_of_not hn
  refine ⟨fault, ?_, hexception⟩
  unfold LZ4CompressionAdapter.uncompress
  simp only [if_neg hlong, hheader, hresize]

theorem length_take_word (value : ByteString) :
    (value.bytes.take (value.size % 2 ^ 32)).length = value.size % 2 ^ 32 :=
  List.length_take_of_le (Nat.mod_le _ _)

section lz4

variable {P : Platform} (h : P.lz4.Documented)
include h

theorem lz4_refuses {value : ByteString} (hsize : 0x7E000000 < value.size % 2 ^ 32) :
    LZ4CompressionAdapter.compress P value = .error (.runtimeError
      ("Invalid input size for LZ4 compression: " ++ toString value.size)) := by
  have hbound : (P.lz4.compressBound (Int32.ofNat value.size)).toInt ≤ 0 := by
    rw [← not_lt, h.compressBound, supported_iff]
    omega
  unfold LZ4CompressionAdapter.compress
  dsimp only
  rw [if_pos hbound]

/-- Any other value is compressed, and what comes out again is its first `size % 2 ^ 32` bytes, or an exception
where that is none or its size is more than a string can be given. -/
theorem lz4_accepts {value : ByteString} (hsize : value.size % 2 ^ 32 ≤ 0x7E000000) :
    ∃ compressed, LZ4CompressionAdapter.compress P value = .ok compressed ∧
      (P.Resizes value.size → LZ4CompressionAdapter.uncompress P compressed =
        if value.size % 2 ^ 32 = 0 then .error (.runtimeError ("result " ++ toString (0 : Int)
          ++ " indicates a failure trying to uncompress the data."))
        else ByteString.ofBytes (value.bytes.take (value.size % 2 ^ 32))) ∧
      (¬ P.Resizes value.size → ∃ fault, LZ4CompressionAdapter.uncompress P compressed = .error fault) := by
  obtain ⟨hnonneg, hmax⟩ := (supported_iff value.size).mpr hsize
  have hbound := (h.compressBound _).mpr ⟨hnonneg, hmax⟩
  have hn := toNat_toInt_of_supported hsize
  have hheld : (Int32.ofNat value.size).toInt ≤ value.bytes.length := by
    have hle := Nat.mod_le value.size (2 ^ 32)
    rw [hn]
    unfold ByteString.size at hle ⊢
    omega
  obtain ⟨hpos, hcount⟩ := h.compressDefault value.bytes _ hnonneg hmax hheld
  have hread := h.decompressSafe value.bytes _ (Int32.ofNat value.size) hnonneg hmax hheld (le_refl _)
  rw [hn, Int.toNat_natCast] at hread
  cases hrun : P.lz4.compressDefault value.bytes (Int32.ofNat value.size)
      (P.lz4.compressBound (Int32.ofNat value.size)) with
  | mk count block =>
    rw [hrun] at hpos hcount hread
    dsimp only at hpos hcount hread
    have hlt := Int32.toInt_lt count
    have hblock : block.length = count.toInt.toNat := by omega
    have hlength : (encodeLE 8 value.size ++ block).length < 2 ^ 63 := by
      rw [List.length_append, length_encodeLE]
      omega
    refine ⟨⟨encodeLE 8 value.size ++ block, hlength⟩, ?_, fun hresizes => ?_, fun hnot => ?_⟩
    · simp only [LZ4CompressionAdapter.compress, if_neg (not_le.mpr hbound), Int32.ofInt_toInt, hrun,
        if_neg (not_le.mpr hpos), ← hblock, shrinkTo_length]
      exact dif_pos hlength
    · rw [← Int32.ofInt_toInt count, ← hcount] at hread
      rw [lz4_uncompress (n := value.size) rfl hresizes hread, hn]
      by_cases hzero : value.size % 2 ^ 32 = 0
      · rw [if_pos (by omega), if_pos hzero, hzero]
        rfl
      · rw [if_neg (by omega), if_neg hzero, Int.toNat_natCast]
        nth_rewrite 2 [← length_take_word]
        rw [shrinkTo_length]
    · have hthrows : ∃ fault, LZ4CompressionAdapter.uncompress P ⟨encodeLE 8 value.size ++ block, hlength⟩
          = .error fault ∧ fault.isException = true := lz4_uncompress_oversized rfl value.size_lt_word hnot
      obtain ⟨fault, hfault, -⟩ := hthrows
      exact ⟨fault, hfault⟩

end lz4

/-- Under LZ4, the value has fewer than `2 ^ 32` bytes and at least one, or the library does not take what is left
of its size. -/
def ComesBack (compressionType : CompressionType) (value : ByteString) : Prop :=
  compressionType = .LZ4 → 0 < value.size ∧ value.size < 2 ^ 32 ∨ 0x7E000000 < value.size % 2 ^ 32

theorem readsBack_lz4_iff {P : Platform} (h : P.lz4.Documented) (value : ByteString) :
    (LZ4CompressionAdapter P).ReadsBack value ↔
      0 < value.size ∧ value.size < 2 ^ 32 ∨ 0x7E000000 < value.size % 2 ^ 32 := by
  by_cases hsize : value.size % 2 ^ 32 ≤ 0x7E000000
  · obtain ⟨compressed, hcompress, huncompress, hthrows⟩ := lz4_accepts h hsize
    have hiff : (LZ4CompressionAdapter P).ReadsBack value ↔
        LZ4CompressionAdapter.uncompress P compressed = .ok value := by
      constructor
      · intro hback
        exact hback compressed hcompress
      · intro hok compressed' hcompress'
        rw [← Except.ok.inj (hcompress.symm.trans hcompress')]
        exact hok
    rw [hiff]
    by_cases hresizes : P.Resizes value.size
    case neg =>
      -- only a longer value than that can be too long for a string
      have hlong : ¬ value.size < 2 ^ 32 := fun hlt => hresizes (P.allocates_small _ hlt)
      obtain ⟨fault, hfault⟩ := hthrows hresizes
      rw [hfault]
      refine iff_of_false (fun hok => ?_) (by omega)
      cases hok
    rw [huncompress hresizes]
    constructor
    · intro hok
      split_ifs at hok with hzero
      -- what comes back is the whole value only if nothing was cut off
      have hlength := congrArg List.length (ByteString.bytes_of_ofBytes hok)
      rw [length_take_word] at hlength
      change value.size = _ at hlength
      omega
    · intro hcond
      have hmod : value.size % 2 ^ 32 = value.size := Nat.mod_eq_of_lt (by omega)
      rw [hmod, if_neg (by omega)]
      unfold ByteString.size
      rw [List.take_length]
      exact value.ofBytes_bytes
  · have hrefuse := lz4_refuses h (lt_of_not_ge hsize)
    refine iff_of_true ?_ (Or.inr (by omega))
    intro compressed hcompress
    change LZ4CompressionAdapter.compress P value = .ok compressed at hcompress
    rw [hrefuse] at hcompress
    cases hcompress

theorem readsBack_iff {P : Platform} (hlz4 : P.lz4.Documented) (hsnappy : SnappyRoundTrips P)
    (compressionType : CompressionType) (value : ByteString) :
    (createCompressor P compressionType).ReadsBack value ↔ ComesBack compressionType value := by
  unfold createCompressor ComesBack
  split_ifs with hnone hsnappy' hlz4'
  · refine iff_of_true (readsBack_noCompression value) ?_
    rw [hnone]
    intro h
    cases h
  · refine iff_of_true (readsBack_snappy hsnappy value) ?_
    rw [hsnappy']
    intro h
    cases h
  · rw [readsBack_lz4_iff hlz4]
    exact ⟨fun h _ => h, fun h => h hlz4'⟩
  · exact iff_of_true (readsBack_noCompression value) fun h => absurd h hlz4'

/-! ### A get behind a put -/

/-- The segment is written, under a 32-bit number, with offsets the hints can hold and every key of the memtable. -/
structure SnapshotReadable (opened : SnapshotStreams) (s : Store) : Prop where
  segment : opened.segment = true
  segmentDir : s.disk.segmentDir.isSome
  word : s.engine.segmentId < 2 ^ 32
  fits : RowsFit s.engine.memTable.createSortedStringsTable.rows
  ordinary : s.engine.memTable.HasOrdinaryKey

/-- A snapshot the put takes can be read. -/
def PutReadable (opened : SnapshotStreams) (s : Store) (key : Key) (value : ByteString) : Prop :=
  ∀ s', putRow s key value = .ok s' → snapshotDue s' = true → SnapshotReadable opened s'

section put

variable {P : Platform} {opened : SnapshotStreams} {s s' : Store}

theorem makeSnapshot_ok (h : makeSnapshot P opened s = (s', .ok ())) (hread : SnapshotReadable opened s) :
    let seg := Segment.ofMemTable s.engine.memTable s.engine.segmentId hread.fits
    s'.engine.index.tableIndexes = seg.tableIndex :: s.engine.index.tableIndexes ∧
      s'.disk.segment (segmentFile seg.fileId.toNat) = some seg.bytes ∧
      s'.engine.bloomFilter = s.engine.bloomFilter.addAll P (seg.rows.map SSTableRow.key) ∧
      s'.engine.memTable = s.engine.memTable.clear ∧ s'.engine.compressor = s.engine.compressor ∧
      s'.engine.hasher = s.engine.hasher := by
  intro seg
  have hid : seg.fileId.toNat = s.engine.segmentId := UInt32.toNat_ofNat_of_lt hread.word
  have hfile := Disk.segment_writeSegment_self hread.segmentDir (segmentFile s.engine.segmentId)
    s.engine.memTable.dump
  unfold makeSnapshot snapshotSegment snapshotBloom snapshotIndex at h
  simp only [hread.segment, if_true] at h
  cases hbloom : opened.bloom with
  | false => simp [hbloom] at h
  | true =>
    cases hindex : opened.index with
    | false => simp [hbloom, hindex] at h
    | true =>
      simp only [hbloom, hindex, if_true] at h
      cases hupdate : s.engine.index.update (SSTableIndex.ofTable (UInt32.ofNat s.engine.segmentId)
          s.engine.memTable.createSortedStringsTable) with
      | error fault =>
        rw [hupdate] at h
        cases h
      | ok index =>
        rw [hupdate] at h
        cases h
        unfold Index.update at hupdate
        split_ifs at hupdate
        cases hupdate
        refine ⟨rfl, ?_, rfl, rfl, rfl, rfl⟩
        rw [hid, Segment.bytes_ofMemTable]
        exact hfile

theorem findOnDisk_makeSnapshot (h : makeSnapshot P opened s = (s', .ok ()))
    (hread : SnapshotReadable opened s) {key : Key} {row : SSTableRow}
    (hfind : s.engine.memTable.findRow key = some row) : findOnDisk P s' key = .ok (visible row) := by
  obtain ⟨htables, hfile, hbloom, -, -, -⟩ := makeSnapshot_ok h hread
  have hrow : (Segment.ofMemTable s.engine.memTable s.engine.segmentId hread.fits).find key = some row := by
    rw [Segment.find_ofMemTable hread.ordinary, hfind]
  obtain ⟨hint, hhint, -⟩ := Segment.slice_of_find hrow
  have hcontains : s'.engine.bloomFilter.probablyContains P key = true := by
    rw [hbloom]
    apply BloomFilter.probablyContains_addAll
    rw [← Segment.key_of_find hrow]
    exact List.mem_map_of_mem (Segment.mem_of_find hrow)
  unfold findOnDisk Index.get
  rw [if_pos hcontains, htables, Index.getLoop, hhint]
  dsimp only [SSTableIndex.getFileId]
  rw [Segment.fileId_tableIndex, Segment.readRow_of_find hfile hrow hhint]
  rfl

theorem get_put {key : Key} {value : ByteString} {compressor : ICompression}
    (hcompressor : s.engine.compressor = some compressor) (hput : put P opened s key value = (s', .ok ()))
    (hread : PutReadable opened s key value) :
    ∃ compressed, compressor.compress value = .ok compressed ∧
      get P s' key = (compressor.uncompress compressed).map some := by
  cases hcompress : compressor.compress value with
  | error fault => simp [put, putRow, hcompressor, hcompress] at hput
  | ok compressed =>
    refine ⟨compressed, rfl, ?_⟩
    cases hhasher : s.engine.hasher with
    | none => simp [put, putRow, hcompressor, hcompress, hhasher] at hput
    | some hasher =>
      have hrow := putRow_eq key hcompressor hhasher hcompress
      let row : SSTableRow := ⟨key, compressed, .Put, hasher.hash compressed⟩
      have hfind : (s.write row).engine.memTable.findRow key = some row := by
        show (s.engine.memTable.writeRow row).findRow key = some row
        rw [MemTable.findRow_writeRow, if_pos rfl]
      have hvisible : visible row = some (compressed, hasher.hash compressed) :=
        if_neg (show EntryType.Put ≠ EntryType.Remove by decide)
      have hfinish : finishGet s.engine (visible row) = (compressor.uncompress compressed).map some := by
        rw [hvisible]
        simp only [finishGet, hhasher, hcompressor, ne_eq, not_true_eq_false, if_false]
      unfold put at hput
      rw [hrow] at hput
      dsimp only at hput
      split_ifs at hput with hdue
      · -- the memtable is cleared, and the row is in the new segment
        have hsnapshot := hread _ hrow hdue
        obtain ⟨-, -, -, hclear, hcompressor', hhasher'⟩ := makeSnapshot_ok hput hsnapshot
        unfold StorageEngine.get findInMemory
        rw [hclear, MemTable.get_eq, MemTable.findRow_clear, Option.bind_none]
        dsimp only
        rw [findOnDisk_makeSnapshot hput hsnapshot hfind]
        dsimp only
        rw [finishGet_congr hcompressor' hhasher']
        exact hfinish
      · cases hput
        unfold StorageEngine.get findInMemory
        rw [MemTable.get_eq, hfind, Option.bind_some, hvisible]
        dsimp only
        rw [← hvisible]
        exact hfinish

end put

/-! ### Values -/

/-- What the adapter of the type accepts it gives back; so does a store with that adapter, to a get behind a put. -/
def ValueReadBack (P : Platform) (compressionType : CompressionType) (value : ByteString) : Prop :=
  (createCompressor P compressionType).ReadsBack value ∧
    ∀ (opened : SnapshotStreams) (s s' : Store) (key : Key),
      s.engine.compressor = some (createCompressor P compressionType) →
      put P opened s key value = (s', .ok ()) → PutReadable opened s key value →
      get P s' key = .ok (some value)

/-- A value is read back if and only if LZ4 is not asked for it, or has a size that fits its interface. -/
theorem valueReadBack_iff {P : Platform} (hlz4 : P.lz4.Documented) (hsnappy : SnappyRoundTrips P)
    (compressionType : CompressionType) (value : ByteString) :
    ValueReadBack P compressionType value ↔ ComesBack compressionType value := by
  rw [← readsBack_iff hlz4 hsnappy]
  constructor
  · intro h
    exact h.1
  · intro h
    refine ⟨h, ?_⟩
    intro opened s s' key hcompressor hput hread
    obtain ⟨compressed, hcompress, hget⟩ := get_put hcompressor hput hread
    rw [hget, h compressed hcompress]
    rfl

/-! ### Blocks of literals -/

/-- A block that is one run of literals, as LZ4 writes it for originals shorter than 13 bytes: the count, from 15
on in further bytes, and the literals. -/
def literalBlock (bytes : List UInt8) : List UInt8 :=
  if bytes.length < 15 then UInt8.ofNat (16 * bytes.length) :: bytes
  else 240 :: (List.replicate ((bytes.length - 15) / 255) 255
    ++ UInt8.ofNat ((bytes.length - 15) % 255) :: bytes)

/-- The count and what follows it. -/
def readCount (count : Nat) : List UInt8 → Option (Nat × List UInt8)
  | [] => none
  | byte :: bytes => if byte = 255 then readCount (count + 255) bytes else some (count + byte.toNat, bytes)

def readLiterals : List UInt8 → Option (Nat × List UInt8)
  | [] => none
  | token :: bytes => if token.toNat / 16 < 15 then some (token.toNat / 16, bytes) else readCount 15 bytes

/-- LZ4 for blocks of literals. -/
def literalLz4 : Lz4Library where
  compressBound n :=
    if 0 ≤ n.toInt ∧ n.toInt ≤ 0x7E000000 then Int32.ofInt (n.toInt + n.toInt / 255 + 16) else 0
  compressDefault bytes n capacity :=
    let block := literalBlock (bytes.take n.toInt.toNat)
    if block.length ≤ capacity.toInt then (Int32.ofNat block.length, block) else (0, [])
  decompressSafe block count capacity :=
    match readLiterals (block.take count.toInt.toNat) with
    | none => (-1, [])
    | some (n, literals) =>
      if literals.length = n ∧ n ≤ capacity.toInt then (Int32.ofNat n, literals) else (-1, [])

theorem readCount_replicate (count k : Nat) {rest : Nat} (hrest : rest < 255) (bytes : List UInt8) :
    readCount count (List.replicate k 255 ++ UInt8.ofNat rest :: bytes) = some (count + 255 * k + rest, bytes) := by
  induction k generalizing count with
  | zero =>
    have hbyte : (UInt8.ofNat rest).toNat = rest := UInt8.toNat_ofNat_of_lt (lt_trans hrest (by decide))
    have hne : UInt8.ofNat rest ≠ 255 := by
      intro heq
      rw [heq] at hbyte
      change 255 = rest at hbyte
      omega
    rw [List.replicate_zero, List.nil_append, readCount, if_neg hne, hbyte]
    rfl
  | succ k ih =>
    rw [List.replicate_succ, List.cons_append, readCount, if_pos rfl, ih]
    congr 2
    omega

theorem readLiterals_literalBlock (bytes : List UInt8) :
    readLiterals (literalBlock bytes) = some (bytes.length, bytes) := by
  unfold literalBlock
  split_ifs with hshort
  · have htoken : (UInt8.ofNat (16 * bytes.length)).toNat = 16 * bytes.length :=
      UInt8.toNat_ofNat_of_lt (show 16 * bytes.length < 256 by omega)
    rw [readLiterals, htoken, if_pos (by omega)]
    congr 2
    omega
  · rw [readLiterals, if_neg (by decide), readCount_replicate 15 _ (Nat.mod_lt _ (by decide))]
    congr 2
    omega

theorem length_literalBlock (bytes : List UInt8) :
    0 < (literalBlock bytes).length ∧ (literalBlock bytes).length ≤ bytes.length + bytes.length / 255 + 16 := by
  unfold literalBlock
  split_ifs
  · rw [List.length_cons]
    omega
  · simp only [List.length_cons, List.length_append, List.length_replicate]
    omega

theorem documented_literalLz4 : literalLz4.Documented := by
  have hbound : ∀ n : Int32, 0 ≤ n.toInt → n.toInt ≤ 0x7E000000 →
      (literalLz4.compressBound n).toInt = n.toInt + n.toInt / 255 + 16 := by
    intro n hnonneg hmax
    show (if 0 ≤ n.toInt ∧ n.toInt ≤ 0x7E000000 then Int32.ofInt (n.toInt + n.toInt / 255 + 16) else 0).toInt = _
    rw [if_pos ⟨hnonneg, hmax⟩, Int32.toInt_ofInt_of_le (by omega) (by omega)]
  have hcompress : ∀ (bytes : List UInt8) (n : Int32), 0 ≤ n.toInt → n.toInt ≤ 0x7E000000 →
      n.toInt ≤ bytes.length → ∃ block, block = literalBlock (bytes.take n.toInt.toNat) ∧
        literalLz4.compressDefault bytes n (literalLz4.compressBound n) = (Int32.ofNat block.length, block) ∧
        (Int32.ofNat block.length).toInt = block.length ∧ 0 < block.length := by
    intro bytes n hnonneg hmax hheld
    obtain ⟨hpos, hle⟩ := length_literalBlock (bytes.take n.toInt.toNat)
    rw [List.length_take_of_le (by omega)] at hle
    refine ⟨_, rfl, if_pos ?_, ?_, hpos⟩
    · rw [hbound n hnonneg hmax]
      omega
    · rw [toInt_ofNat_eq, Int.bmod_def, if_pos (by omega)]
      omega
  constructor
  · intro n
    constructor
    · intro h
      by_contra hnot
      have hzero : literalLz4.compressBound n = 0 := if_neg hnot
      rw [hzero] at h
      exact absurd h (by decide)
    · rintro ⟨hnonneg, hmax⟩
      rw [hbound n hnonneg hmax]
      omega
  · intro bytes n hnonneg hmax hheld
    obtain ⟨block, -, hrun, hcount, hpos⟩ := hcompress bytes n hnonneg hmax hheld
    rw [hrun]
    dsimp only
    exact ⟨by omega, hcount.symm⟩
  · intro bytes n capacity hnonneg hmax hheld hcapacity
    obtain ⟨block, hblock, hrun, hcount, hpos⟩ := hcompress bytes n hnonneg hmax hheld
    have hlength : (bytes.take n.toInt.toNat).length = n.toInt.toNat := List.length_take_of_le (by omega)
    rw [hrun]
    show (match readLiterals (block.take (Int32.ofNat block.length).toInt.toNat) with
      | none => (-1, [])
      | some (n, literals) =>
        if literals.length = n ∧ n ≤ capacity.toInt then (Int32.ofNat n, literals) else (-1, [])) = _
    rw [hcount, Int.toNat_natCast, List.take_length, hblock, readLiterals_literalBlock]
    dsimp only
    rw [if_pos ⟨rfl, by omega⟩, hlength]
    congr 1
    calc Int32.ofNat n.toInt.toNat = Int32.ofInt (n.toInt.toNat : Nat) := rfl
      _ = Int32.ofInt n.toInt := by rw [Int.toNat_of_nonneg hnonneg]
      _ = n := Int32.ofInt_toInt n

/-- The plain platform with LZ4 for blocks of literals; Snappy keeps the bytes. -/
def lz4Platform : Platform :=
  { plainPlatform with
    lz4 := literalLz4
    snappyCompress := fun bytes => bytes
    snappyUncompress := fun bytes => (true, bytes) }

theorem valueReadBack_letter : ValueReadBack lz4Platform .LZ4 (.single 97) :=
  (valueReadBack_iff (P := lz4Platform) documented_literalLz4 (fun _ => rfl) .LZ4 (.single 97)).mpr fun _ =>
    Or.inl (by decide)

/-- A directory opened with default options takes the empty value, and throws when it is read. -/
theorem not_valueReadBack_empty :
    ¬ ValueReadBack lz4Platform .LZ4 ByteString.empty ∧
      ∃ disk e s', «open» lz4Platform {} {} {} {} = (disk, .ok e) ∧
        put lz4Platform {} ⟨disk, e⟩ ⟨1⟩ ByteString.empty = (s', .ok ()) ∧
        get lz4Platform s' ⟨1⟩
          = .error (.runtimeError "result 0 indicates a failure trying to uncompress the data.") := by
  constructor
  · intro h
    have hcond := (readsBack_lz4_iff (P := lz4Platform) documented_literalLz4 ByteString.empty).mp h.1
    exact absurd hcond (by decide)
  · exact ⟨_, _, _, rfl, rfl, rfl⟩

end OmxDb
