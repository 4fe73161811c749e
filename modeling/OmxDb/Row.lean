import OmxDb.Codec

/-!
# Rows and their byte format

`SSTableRow` with `serialize` and `deserialize`. A row is written as seven fields: entry type, key width,
key, value length, value, checksum width, checksum. The reader takes both widths from the stream and never
checks that a read succeeded, so a row cut short comes back half filled: a field that was not reached keeps
what its variable was initialized with, and the entry type, which is not initialized, keeps whatever was
there.

`deserialize_serialize` reads a row back from in front of any other bytes, and `deserialize_cut` says what
happens on a cut row: no fault, some row, and an exhausted stream.
-/

namespace OmxDb

open LittleEndian

structure EntryType where
  code : UInt8
deriving DecidableEq, Repr

def EntryType.Put : EntryType := ⟨0⟩
def EntryType.Remove : EntryType := ⟨1⟩

@[ext] structure SSTableRow where
  key : Key
  value : ByteString
  entryType : EntryType
  checksum : UInt128 := (0, 0)
deriving DecidableEq

namespace SSTableRow

/-- The sizes of the seven fields, added up. -/
def getRowSize (row : SSTableRow) : Nat := 1 + 1 + 8 + 8 + row.value.size + 1 + 16

/-- `std::pair<uint64_t, uint64_t>` in memory. -/
def checksumBytes (checksum : UInt128) : List UInt8 :=
  encodeLE 8 checksum.1.toNat ++ encodeLE 8 checksum.2.toNat

def checksumOfBytes (bytes : List UInt8) : UInt128 :=
  (UInt64.ofNat (decodeLE (bytes.take 8)), UInt64.ofNat (decodeLE ((bytes.drop 8).take 8)))

end SSTableRow

def serialize (row : SSTableRow) : List UInt8 :=
  [row.entryType.code] ++ ([8] ++ (encodeLE 8 row.key.id.toNat ++ (encodeLE 8 row.value.size ++
    (row.value.bytes ++ ([16] ++ SSTableRow.checksumBytes row.checksum)))))

def deserialize (P : Platform) (s : IStream) : Except Fault (SSTableRow × IStream) := do
  let (entryType, s) ← readInto s [P.indeterminate] 1
  let (sizeOfKey, s) ← readInto s [0] 1
  let (id, s) ← readInto s (encodeLE 8 0) (decodeLE sizeOfKey)
  let (numBytes, s) ← readInto s (encodeLE 8 0) 8
  let (value, s) ← readString s (decodeLE numBytes)
  let (sizeOfChecksum, s) ← readInto s [0] 1
  let (checksum, s) ← readInto s (SSTableRow.checksumBytes (0, 0)) (decodeLE sizeOfChecksum)
  return (⟨⟨UInt64.ofNat (decodeLE id)⟩, value, ⟨entryType.headD 0⟩,
    SSTableRow.checksumOfBytes checksum⟩, s)

/-- The concatenated serializations of the rows. -/
def serializeAll (rows : List SSTableRow) : List UInt8 := rows.flatMap serialize

/-! ### Sizes -/

@[simp] theorem SSTableRow.length_checksumBytes (checksum : UInt128) :
    (SSTableRow.checksumBytes checksum).length = 16 := by
  simp [SSTableRow.checksumBytes]

theorem length_serialize (row : SSTableRow) : (serialize row).length = row.getRowSize := by
  simp only [serialize, SSTableRow.getRowSize, List.length_append, List.length_cons, List.length_nil,
    length_encodeLE, SSTableRow.length_checksumBytes, ByteString.size]
  omega

theorem serialize_ne_nil (row : SSTableRow) : serialize row ≠ [] := by
  simp [serialize]

@[simp] theorem serializeAll_nil : serializeAll [] = [] := rfl

@[simp] theorem serializeAll_cons (row : SSTableRow) (rows : List SSTableRow) :
    serializeAll (row :: rows) = serialize row ++ serializeAll rows := rfl

theorem serializeAll_append (left right : List SSTableRow) :
    serializeAll (left ++ right) = serializeAll left ++ serializeAll right := by
  simp [serializeAll]

theorem serializeAll_eq_nil {rows : List SSTableRow} : serializeAll rows = [] ↔ rows = [] := by
  cases rows with
  | nil => simp
  | cons row rows => simp [serialize_ne_nil]

/-! ### Reading a whole row -/

theorem SSTableRow.checksumOfBytes_checksumBytes (checksum : UInt128) :
    SSTableRow.checksumOfBytes (SSTableRow.checksumBytes checksum) = checksum := by
  have htake (bytes : List UInt8) (h : bytes.length = 8) : bytes.take 8 = bytes := by
    rw [← h, List.take_length]
  simp [SSTableRow.checksumOfBytes, SSTableRow.checksumBytes, htake]

/-- A row reads back from in front of any other bytes, which are left in the stream. -/
theorem deserialize_serialize (P : Platform) (row : SSTableRow) (tail : List UInt8) :
    deserialize P (IStream.ofBytes (serialize row ++ tail)) = .ok (row, IStream.ofBytes tail) := by
  have hsize : decodeLE (encodeLE 8 row.value.size) = row.value.size :=
    decodeLE_encodeLE_of_lt row.value.size_lt_word
  simp only [deserialize, serialize, List.append_assoc]
  rw [readInto_ofBytes (n := 1) rfl rfl]
  simp only [bind, Except.bind]
  rw [readInto_ofBytes (n := 1) rfl rfl]
  simp only [decodeLE_singleton, show (8 : UInt8).toNat = 8 from rfl]
  rw [readInto_ofBytes (n := 8) (by simp) (by simp)]
  simp only []
  rw [readInto_ofBytes (n := 8) (by simp) (by simp)]
  simp only [hsize]
  rw [readString_ofBytes (n := row.value.size) rfl row.value.size_lt]
  simp only []
  rw [readInto_ofBytes (n := 1) rfl rfl]
  simp only [decodeLE_singleton, show (16 : UInt8).toNat = 16 from rfl]
  rw [readInto_ofBytes (n := 16) (by simp) (by simp)]
  simp [SSTableRow.checksumOfBytes_checksumBytes, pure, Except.pure]

/-! ### Reading a cut row -/

theorem take_append_cases (left : List UInt8) (count : Nat) :
    (count < left.length ∧ ∀ right, (left ++ right).take count = left.take count) ∨
      ∃ rest, count = left.length + rest ∧ ∀ right, (left ++ right).take count = left ++ right.take rest := by
  rcases Nat.lt_or_ge count left.length with h | h
  · exact Or.inl ⟨h, fun right => List.take_append_of_le_length (le_of_lt h)⟩
  · refine Or.inr ⟨count - left.length, by omega, fun right => ?_⟩
    rw [List.take_append, List.take_of_length_le h]

theorem readInto_take {field dst : List UInt8} {n count : Nat} (hn : field.length = n)
    (hdst : dst.length = n) (hcut : count < n) :
    readInto (IStream.ofBytes (field.take count)) dst n
      = .ok (field.take count ++ dst.drop count, IStream.exhausted) := by
  have hlen : (field.take count).length = count := by simp; omega
  rw [readInto_ofBytes_short (by omega) (by omega), hlen]

private theorem deserialize_tail_exhausted (key : Key) (entryType : EntryType) {numBytes : Nat}
    (hlt : numBytes < 2 ^ 63) :
    ∃ row, (do
      let (value, s) ← readString IStream.exhausted numBytes
      let (sizeOfChecksum, s) ← readInto s [0] 1
      let (checksum, s) ← readInto s (SSTableRow.checksumBytes (0, 0)) (decodeLE sizeOfChecksum)
      return ((⟨key, value, entryType, SSTableRow.checksumOfBytes checksum⟩ : SSTableRow), s) :
        Except Fault (SSTableRow × IStream)) = .ok (row, IStream.exhausted) := by
  obtain ⟨value, hvalue⟩ := readString_exhausted hlt
  simp [hvalue, bind, Except.bind, pure, Except.pure]

/-- A row cut anywhere, its start included, is read without a fault and exhausts the stream. -/
theorem deserialize_cut (P : Platform) (row : SSTableRow) {count : Nat}
    (hcut : count < (serialize row).length) :
    ∃ cutRow, deserialize P (IStream.ofBytes ((serialize row).take count))
      = .ok (cutRow, IStream.exhausted) := by
  have hsize : decodeLE (encodeLE 8 row.value.size) = row.value.size :=
    decodeLE_encodeLE_of_lt row.value.size_lt_word
  have hzero : decodeLE (encodeLE 8 0) = 0 := rfl
  have hpos : 0 < 2 ^ 63 := by decide
  simp only [deserialize]
  rw [length_serialize, SSTableRow.getRowSize] at hcut
  rw [serialize]
  rcases take_append_cases [row.entryType.code] count with ⟨h, hp⟩ | ⟨count₁, rfl, hp⟩ <;> rw [hp]
  · -- the entry type is missing
    rw [readInto_take (n := 1) rfl rfl h]
    simp only [bind, Except.bind, readInto_exhausted, hzero]
    exact deserialize_tail_exhausted _ _ hpos
  rw [readInto_ofBytes (n := 1) rfl rfl]
  simp only [bind, Except.bind]
  rcases take_append_cases [8] count₁ with ⟨h, hp⟩ | ⟨count₂, rfl, hp⟩ <;> rw [hp]
  · -- the key width is missing
    rw [readInto_take (n := 1) rfl rfl h]
    simp only [readInto_exhausted, hzero]
    exact deserialize_tail_exhausted _ _ hpos
  rw [readInto_ofBytes (n := 1) rfl rfl]
  simp only [decodeLE_singleton, show (8 : UInt8).toNat = 8 from rfl]
  rcases take_append_cases (encodeLE 8 row.key.id.toNat) count₂ with ⟨h, hp⟩ | ⟨count₃, rfl, hp⟩ <;> rw [hp]
  · -- the key is cut
    rw [readInto_take (n := 8) (by simp) (by simp) (by simpa using h)]
    simp only [readInto_exhausted, hzero]
    exact deserialize_tail_exhausted _ _ hpos
  rw [readInto_ofBytes (n := 8) (by simp) (by simp)]
  simp only []
  rcases take_append_cases (encodeLE 8 row.value.size) count₃ with ⟨h, hp⟩ | ⟨count₄, rfl, hp⟩ <;> rw [hp]
  · -- the value length is cut: what was read of it is at most the length
    rw [readInto_take (n := 8) (by simp) (by simp) (by simpa using h)]
    simp only []
    refine deserialize_tail_exhausted _ _ (lt_of_le_of_lt ?_ row.value.size_lt)
    rw [encodeLE_zero, List.drop_replicate, decodeLE_append_zeros]
    exact decodeLE_take_le 8 row.value.size count₃
  rw [readInto_ofBytes (n := 8) (by simp) (by simp)]
  simp only [hsize]
  rcases take_append_cases row.value.bytes count₄ with ⟨h, hp⟩ | ⟨count₅, rfl, hp⟩ <;> rw [hp]
  · -- the value is cut
    have hlen : (row.value.bytes.take count₄).length < row.value.size := by
      rw [List.length_take]
      exact lt_of_le_of_lt (min_le_left _ _) h
    obtain ⟨value, hvalue⟩ := readString_ofBytes_short hlen row.value.size_lt
    simp [hvalue, readInto_exhausted, pure, Except.pure]
  rw [readString_ofBytes (n := row.value.size) rfl row.value.size_lt]
  simp only []
  rcases take_append_cases [16] count₅ with ⟨h, hp⟩ | ⟨count₆, rfl, hp⟩ <;> rw [hp]
  · -- the checksum width is missing
    rw [readInto_take (n := 1) rfl rfl h]
    simp [readInto_exhausted, pure, Except.pure]
  · -- the checksum is cut
    rw [readInto_ofBytes (n := 1) rfl rfl]
    simp only [decodeLE_singleton, show (16 : UInt8).toNat = 16 from rfl]
    have hlt : count₆ < 16 := by
      simp only [List.length_cons, List.length_nil, length_encodeLE, ByteString.size] at hcut
      omega
    rw [readInto_take (n := 16) (by simp) (by simp) hlt]
    simp [pure, Except.pure]

end OmxDb
