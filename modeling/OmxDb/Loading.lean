import OmxDb.RowStreams
import OmxDb.IndexFiles
import OmxDb.Lib.RecordLoops

/-!
# Loading from any stream

Three loops read until the end of a stream, whatever is in it: `restoreFromLog`, `SSTable::load` and
`SSTableIndex::load`. Their only test is `eof`. On a good stream every iteration takes a byte or meets the end, so
the loop ends, unless a width byte makes a read run past its variable (`RowsOverrun`, `IndexOverrun`). A stream that
failed before its end is never read to the end: no read of it extracts anything or sets `eof`, and the loop goes on
forever. `loading_ends_iff` says that nothing else can happen.
-/

namespace OmxDb

open LittleEndian

/-- The call returns, or throws an exception. -/
def Ends {α : Type} : Except Fault α → Prop := RecordLoop.Halts fun fault => fault.isException = true

theorem diverges_not_exception : ¬ Fault.diverges.isException = true := Bool.false_ne_true

/-! ### Fields -/

/-- A width byte and that many bytes, which a variable of this capacity holds. -/
def IsField (capacity : Nat) (bytes : List UInt8) : Prop :=
  ∃ width content, bytes = width :: content ∧ content.length = width.toNat ∧ width.toNat ≤ capacity

/-- A width byte above the capacity of the variable, with more bytes behind it than that. -/
def FieldOverruns (capacity : Nat) (bytes : List UInt8) : Prop :=
  ∃ width rest, bytes = width :: rest ∧ capacity < width.toNat ∧ capacity < rest.length

theorem IsField.ne_nil {capacity : Nat} {bytes : List UInt8} (h : IsField capacity bytes) : bytes ≠ [] := by
  obtain ⟨width, content, rfl, -, -⟩ := h
  exact List.cons_ne_nil width content

theorem FieldOverruns.ne_nil {capacity : Nat} {bytes : List UInt8} (h : FieldOverruns capacity bytes) :
    bytes ≠ [] := by
  obtain ⟨width, rest, rfl, -, -⟩ := h
  exact List.cons_ne_nil width rest

/-- `stream.read(&width, 1)` and `stream.read(&variable, width)`. -/
def readField (s : IStream) (width dst : List UInt8) : Except Fault (List UInt8 × List UInt8 × IStream) := do
  let (width, s) ← readInto s width 1
  let (dst, s) ← readInto s dst (decodeLE width)
  return (width, dst, s)

theorem readInto_of_not_good {s : IStream} (h : s.good = false) (dst : List UInt8) (n : Nat) :
    readInto s dst n = .ok (dst, s.fail) := by
  simp [readInto, IStream.read_of_not_good h]

theorem readField_of_not_good {s : IStream} (h : s.good = false) (width dst : List UInt8) :
    readField s width dst = .ok (width, dst, s.fail) := by
  simp [readField, readInto_of_not_good h, readInto_of_not_good s.good_fail, bind, Except.bind, pure, Except.pure]

theorem readField_exhausted (width dst : List UInt8) :
    readField IStream.exhausted width dst = .ok (width, dst, IStream.exhausted) :=
  readField_of_not_good rfl width dst

theorem readInto_overflow {bytes dst : List UInt8} {n : Nat} (hn : dst.length < n)
    (hbytes : dst.length < bytes.length) : readInto (IStream.ofBytes bytes) dst n = .error .bufferOverflow := by
  have hlength : dst.length < ((IStream.ofBytes bytes).read n).1.length := by
    rcases Nat.lt_or_ge bytes.length n with hshort | hlong
    · rw [IStream.read_ofBytes_short bytes hshort]
      exact hbytes
    · have hsplit := IStream.read_ofBytes (bytes.take n) (bytes.drop n) (List.length_take_of_le hlong)
      rw [List.take_append_drop] at hsplit
      rw [hsplit, List.length_take_of_le hlong]
      exact hn
  unfold readInto
  dsimp only
  rw [if_neg (by omega)]

theorem readInto_part {head tail dst : List UInt8} {n : Nat} (hn : head.length = n) (hdst : n ≤ dst.length) :
    readInto (IStream.ofBytes (head ++ tail)) dst n = .ok (head ++ dst.drop n, IStream.ofBytes tail) := by
  rw [readInto, IStream.read_ofBytes head tail hn]
  dsimp only
  rw [hn, if_pos hdst]

section field

variable {capacity : Nat} {width dst : List UInt8} (hwidth : width.length = 1) (hdst : dst.length = capacity)
include hwidth hdst

theorem readField_overruns {bytes : List UInt8} (h : FieldOverruns capacity bytes) :
    readField (IStream.ofBytes bytes) width dst = .error .bufferOverflow := by
  obtain ⟨byte, rest, rfl, hbyte, hrest⟩ := h
  simp only [readField, readByte_ofBytes byte rest hwidth, bind, Except.bind, decodeLE_singleton]
  rw [readInto_overflow (by omega) (by omega)]

theorem readField_isField {field : List UInt8} (h : IsField capacity field) (tail : List UInt8) :
    ∃ width' dst', readField (IStream.ofBytes (field ++ tail)) width dst = .ok (width', dst', IStream.ofBytes tail) ∧
      width'.length = 1 ∧ dst'.length = capacity := by
  obtain ⟨byte, content, rfl, hcontent, hbyte⟩ := h
  refine ⟨[byte], content ++ dst.drop byte.toNat, ?_, rfl, ?_⟩
  · simp only [readField, List.cons_append, readByte_ofBytes byte (content ++ tail) hwidth, bind, Except.bind,
      decodeLE_singleton]
    rw [readInto_part hcontent (by omega)]
    rfl
  · rw [List.length_append, List.length_drop]
    omega

theorem readField_cases (bytes : List UInt8) :
    FieldOverruns capacity bytes ∨ (∃ field tail, bytes = field ++ tail ∧ IsField capacity field) ∨
      ∃ width' dst', readField (IStream.ofBytes bytes) width dst = .ok (width', dst', IStream.exhausted) := by
  cases bytes with
  | nil =>
    refine Or.inr (Or.inr ⟨width, dst, ?_⟩)
    have hread : readInto (IStream.ofBytes []) width 1 = .ok (width, IStream.exhausted) :=
      readInto_ofBytes_short (by simp) (by simp)
    simp [readField, hread, bind, Except.bind, pure, Except.pure]
  | cons byte rest =>
    rcases Nat.lt_or_ge rest.length byte.toNat with hshort | hlong
    · rcases Nat.lt_or_ge capacity rest.length with hover | hfits
      · exact Or.inl ⟨byte, rest, rfl, by omega, hover⟩
      · -- the content is cut
        refine Or.inr (Or.inr ⟨[byte], rest ++ dst.drop rest.length, ?_⟩)
        simp only [readField, readByte_ofBytes byte rest hwidth, bind, Except.bind, decodeLE_singleton]
        rw [readInto_ofBytes_short hshort (by omega)]
        rfl
    · rcases Nat.lt_or_ge capacity byte.toNat with hover | hfits
      · exact Or.inl ⟨byte, rest, rfl, hover, by omega⟩
      · refine Or.inr (Or.inl ⟨byte :: rest.take byte.toNat, rest.drop byte.toNat, ?_, ?_⟩)
        · rw [List.cons_append, List.take_append_drop]
        · exact ⟨byte, _, rfl, List.length_take_of_le hlong, hfits⟩

end field

/-! ### Values -/

/-- Eight bytes for a size that a string can have, and that many bytes. -/
def IsSized (bytes : List UInt8) : Prop :=
  ∃ size value, bytes = size ++ value ∧ size.length = 8 ∧ value.length = decodeLE size ∧ decodeLE size < 2 ^ 63

/-- `stream.read(&numBytes, 8)` and the read of the value into a string of this size. -/
def readSized (s : IStream) : Except Fault (ByteString × IStream) := do
  let (numBytes, s) ← readInto s (encodeLE 8 0) 8
  readString s (decodeLE numBytes)

theorem readSized_of_not_good {s : IStream} (h : s.good = false) : readSized s = .ok (ByteString.empty, s.fail) := by
  have hzero : decodeLE (encodeLE 8 0) = 0 := rfl
  simp only [readSized, readInto_of_not_good h, bind, Except.bind, hzero]
  rw [readString, dif_pos (by decide)]
  simp [IStream.read_of_not_good s.good_fail, ByteString.empty]

theorem readSized_isSized {bytes : List UInt8} (h : IsSized bytes) (tail : List UInt8) :
    ∃ value, readSized (IStream.ofBytes (bytes ++ tail)) = .ok (value, IStream.ofBytes tail) := by
  obtain ⟨size, value, rfl, hsize, hvalue, hlt⟩ := h
  refine ⟨⟨value, by omega⟩, ?_⟩
  rw [readSized, List.append_assoc, readInto_ofBytes hsize (by simp)]
  exact readString_ofBytes hvalue hlt

theorem readSized_cases (bytes : List UInt8) :
    (∃ head tail, bytes = head ++ tail ∧ IsSized head) ∨
      readSized (IStream.ofBytes bytes) = .error .lengthError ∨
      ∃ value, readSized (IStream.ofBytes bytes) = .ok (value, IStream.exhausted) := by
  rcases Nat.lt_or_ge bytes.length 8 with hshort | hlong
  · -- the size is cut: what was read of it is small
    have hsmall : decodeLE (bytes ++ (encodeLE 8 0).drop bytes.length) < 2 ^ 63 := by
      rw [encodeLE_zero, List.drop_replicate, decodeLE_append_zeros]
      have hlt := decodeLE_lt bytes
      have hpow : 256 ^ bytes.length ≤ 256 ^ 7 := Nat.pow_le_pow_right (by decide) (by omega)
      omega
    obtain ⟨value, hvalue⟩ := readString_exhausted hsmall
    have hdst : bytes.length ≤ (encodeLE 8 0).length := by
      rw [length_encodeLE]
      omega
    refine Or.inr (Or.inr ⟨value, ?_⟩)
    rw [readSized, readInto_ofBytes_short hshort hdst]
    exact hvalue
  · obtain ⟨size, rest, rfl, hsize⟩ : ∃ size tail, bytes = size ++ tail ∧ size.length = 8 :=
      ⟨bytes.take 8, bytes.drop 8, (List.take_append_drop 8 bytes).symm, List.length_take_of_le hlong⟩
    rw [readSized, readInto_ofBytes hsize (length_encodeLE 8 0)]
    rcases Nat.lt_or_ge (decodeLE size) (2 ^ 63) with hlt | hge
    · rcases Nat.lt_or_ge rest.length (decodeLE size) with hcut | hwhole
      · exact Or.inr (Or.inr (readString_ofBytes_short hcut hlt))
      · refine Or.inl ⟨size ++ rest.take (decodeLE size), rest.drop (decodeLE size), ?_, ?_⟩
        · rw [List.append_assoc, List.take_append_drop]
        · exact ⟨size, _, rfl, hsize, List.length_take_of_le hwhole, hlt⟩
    · exact Or.inr (Or.inl (dif_neg (not_lt.mpr hge)))

/-! ### Rows -/

/-- A row up to its value: type, key, and the value behind its size. -/
def IsRowHead (bytes : List UInt8) : Prop :=
  ∃ entryType key value, bytes = entryType :: (key ++ value) ∧ IsField 8 key ∧ IsSized value

def IsRow (bytes : List UInt8) : Prop :=
  ∃ head checksum, bytes = head ++ checksum ∧ IsRowHead head ∧ IsField 16 checksum

/-- The key or the checksum of a row overruns its variable. -/
inductive RowOverruns : List UInt8 → Prop where
  | key {entryType : UInt8} {bytes : List UInt8} : FieldOverruns 8 bytes → RowOverruns (entryType :: bytes)
  | checksum {head bytes : List UInt8} : IsRowHead head → FieldOverruns 16 bytes → RowOverruns (head ++ bytes)

/-- Behind whole rows, one overruns a variable. -/
abbrev RowsOverrun : List UInt8 → Prop := RecordLoop.Behind IsRow RowOverruns

theorem IsRowHead.ne_nil {bytes : List UInt8} (h : IsRowHead bytes) : bytes ≠ [] := by
  obtain ⟨entryType, key, value, rfl, -⟩ := h
  exact List.cons_ne_nil entryType _

theorem deserialize_eq (P : Platform) (s : IStream) : deserialize P s = (do
    let (entryType, s) ← readInto s [P.indeterminate] 1
    let (_, id, s) ← readField s [0] (encodeLE 8 0)
    let (value, s) ← readSized s
    let (_, checksum, s) ← readField s [0] (SSTableRow.checksumBytes (0, 0))
    return (⟨⟨UInt64.ofNat (decodeLE id)⟩, value, ⟨entryType.headD 0⟩, SSTableRow.checksumOfBytes checksum⟩, s)) := by
  simp only [deserialize, readField, readSized, bind_assoc, pure_bind]

theorem deserialize_of_not_good (P : Platform) {s : IStream} (h : s.good = false) :
    deserialize P s = .ok (MemTable.phantomRow P, s.fail) := by
  rw [deserialize_eq]
  simp only [readInto_of_not_good h, readField_of_not_good s.good_fail, readSized_of_not_good s.good_fail,
    IStream.fail_fail, bind, Except.bind]
  rfl

theorem deserialize_head (P : Platform) {head : List UInt8} (h : IsRowHead head) (tail : List UInt8) :
    ∃ row : List UInt8 → SSTableRow, deserialize P (IStream.ofBytes (head ++ tail)) =
      (readField (IStream.ofBytes tail) [0] (SSTableRow.checksumBytes (0, 0))).map fun read =>
        (row read.2.1, read.2.2) := by
  obtain ⟨entryType, key, sized, rfl, hkey, hsized⟩ := h
  have htype : [P.indeterminate].length = 1 := rfl
  have hwidth : [(0 : UInt8)].length = 1 := rfl
  obtain ⟨width, id, hread, -, -⟩ := readField_isField hwidth (length_encodeLE 8 0) hkey (sized ++ tail)
  obtain ⟨value, hvalue⟩ := readSized_isSized hsized tail
  refine ⟨fun checksum => ⟨⟨UInt64.ofNat (decodeLE id)⟩, value, ⟨entryType⟩, SSTableRow.checksumOfBytes checksum⟩, ?_⟩
  rw [deserialize_eq]
  simp only [List.cons_append, List.append_assoc, readByte_ofBytes entryType _ htype, hread, hvalue, bind,
    Except.bind]
  cases readField (IStream.ofBytes tail) [0] (SSTableRow.checksumBytes (0, 0)) with
  | error fault => rfl
  | ok read => rfl

theorem deserialize_isRow (P : Platform) {bytes : List UInt8} (h : IsRow bytes) (tail : List UInt8) :
    ∃ row, deserialize P (IStream.ofBytes (bytes ++ tail)) = .ok (row, IStream.ofBytes tail) := by
  obtain ⟨head, field, rfl, hhead, hfield⟩ := h
  have hwidth : [(0 : UInt8)].length = 1 := rfl
  obtain ⟨row, hrow⟩ := deserialize_head P hhead (field ++ tail)
  obtain ⟨width, checksum, hchecksum, -, -⟩ :=
    readField_isField hwidth (SSTableRow.length_checksumBytes (0, 0)) hfield tail
  refine ⟨row checksum, ?_⟩
  rw [List.append_assoc, hrow, hchecksum]
  rfl

theorem deserialize_overruns (P : Platform) {bytes : List UInt8} (h : RowOverruns bytes) :
    deserialize P (IStream.ofBytes bytes) = .error .bufferOverflow := by
  have htype : [P.indeterminate].length = 1 := rfl
  have hwidth : [(0 : UInt8)].length = 1 := rfl
  cases h with
  | @key entryType bytes hover =>
    rw [deserialize_eq]
    simp only [readByte_ofBytes entryType bytes htype, readField_overruns hwidth (length_encodeLE 8 0) hover, bind,
      Except.bind]
  | @checksum head bytes hhead hover =>
    obtain ⟨row, hrow⟩ := deserialize_head P hhead bytes
    rw [hrow, readField_overruns hwidth (SSTableRow.length_checksumBytes (0, 0)) hover]
    rfl

theorem deserialize_head_cases (P : Platform) (bytes : List UInt8) :
    RowOverruns bytes ∨ (∃ head tail, bytes = head ++ tail ∧ IsRowHead head) ∨
      deserialize P (IStream.ofBytes bytes) = .error .lengthError ∨
      ∃ row, deserialize P (IStream.ofBytes bytes) = .ok (row, IStream.exhausted) := by
  have hwidth : [(0 : UInt8)].length = 1 := rfl
  have hexhausted := readSized_of_not_good (s := IStream.exhausted) rfl
  rw [deserialize_eq]
  cases bytes with
  | nil =>
    have htype : readInto (IStream.ofBytes []) [P.indeterminate] 1 = .ok ([P.indeterminate], IStream.exhausted) :=
      readInto_ofBytes_short (by simp) (by simp)
    refine Or.inr (Or.inr (Or.inr ?_))
    simp only [htype, bind, Except.bind, readField_exhausted, hexhausted]
    exact ⟨_, rfl⟩
  | cons entryType rest =>
    have htype : readInto (IStream.ofBytes (entryType :: rest)) [P.indeterminate] 1
        = .ok ([entryType], IStream.ofBytes rest) := readByte_ofBytes entryType rest rfl
    obtain hover | ⟨key, rest, rfl, hkey⟩ | ⟨width, id, hread⟩ := readField_cases hwidth (length_encodeLE 8 0) rest
    · exact Or.inl (RowOverruns.key hover)
    · obtain ⟨width, id, hread, -, -⟩ := readField_isField hwidth (length_encodeLE 8 0) hkey rest
      obtain ⟨value, tail, rfl, hvalue⟩ | hlong | ⟨value, hvalue⟩ := readSized_cases rest
      · refine Or.inr (Or.inl ⟨entryType :: (key ++ value), tail, ?_, entryType, key, value, rfl, hkey, hvalue⟩)
        rw [List.cons_append, List.append_assoc]
      · refine Or.inr (Or.inr (Or.inl ?_))
        simp only [htype, hread, hlong, bind, Except.bind]
      · -- cut in the value
        refine Or.inr (Or.inr (Or.inr ?_))
        simp only [htype, hread, hvalue, bind, Except.bind, readField_exhausted]
        exact ⟨_, rfl⟩
    · -- cut at the key
      refine Or.inr (Or.inr (Or.inr ?_))
      simp only [htype, hread, bind, Except.bind, hexhausted]
      exact ⟨_, rfl⟩

/-- A row overruns a variable, or is read, or is too long for a string, or the stream ends inside it. -/
theorem deserialize_cases (P : Platform) (bytes : List UInt8) :
    RowOverruns bytes ∨ (∃ head tail, bytes = head ++ tail ∧ IsRow head) ∨
      deserialize P (IStream.ofBytes bytes) = .error .lengthError ∨
      ∃ row, deserialize P (IStream.ofBytes bytes) = .ok (row, IStream.exhausted) := by
  have hwidth : [(0 : UInt8)].length = 1 := rfl
  obtain hover | ⟨head, rest, rfl, hhead⟩ | hcut := deserialize_head_cases P bytes
  · exact Or.inl hover
  · obtain ⟨row, hrow⟩ := deserialize_head P hhead rest
    obtain hover | ⟨field, tail, rfl, hfield⟩ | ⟨width, checksum, hchecksum⟩ :=
      readField_cases hwidth (SSTableRow.length_checksumBytes (0, 0)) rest
    · exact Or.inl (RowOverruns.checksum hhead hover)
    · refine Or.inr (Or.inl ⟨head ++ field, tail, (List.append_assoc head field tail).symm, ?_⟩)
      exact ⟨head, field, rfl, hhead, hfield⟩
    · -- cut at the checksum
      refine Or.inr (Or.inr (Or.inr ⟨row checksum, ?_⟩))
      rw [hrow, hchecksum]
      rfl
  · exact Or.inr (Or.inr hcut)

/-- The body of a loop over rows, but for the place where a row goes. -/
def rowBody (P : Platform) (_ : Unit) (s : IStream) : Except Fault (Unit × IStream) :=
  (deserialize P s).map fun read => ((), read.2)

theorem rowBody_reads (P : Platform) :
    RecordLoop.Reads (fun fault => fault.isException = true) (rowBody P) (fun _ => True) IsRow RowOverruns where
  record_ne_nil := by
    rintro bytes ⟨head, checksum, rfl, hhead, -⟩
    exact List.append_ne_nil_of_left_ne_nil hhead.ne_nil checksum
  breaks_ne_nil := by
    intro bytes hbreaks
    cases hbreaks with
    | key _ => exact List.cons_ne_nil _ _
    | checksum hhead _ => exact List.append_ne_nil_of_left_ne_nil hhead.ne_nil _
  reads := by
    intro x head _ hrow tail
    obtain ⟨row, hread⟩ := deserialize_isRow P hrow tail
    refine ⟨(), ?_, trivial⟩
    rw [rowBody, hread]
    rfl
  not_halts := by
    intro x bytes _ hbreaks
    rw [rowBody, deserialize_overruns P hbreaks]
    exact Bool.false_ne_true
  cases := by
    intro x _ bytes
    obtain hbreaks | hrow | hread | ⟨row, hread⟩ := deserialize_cases P bytes
    · exact Or.inl hbreaks
    · exact Or.inr (Or.inl hrow)
    · refine Or.inr (Or.inr (Or.inl ⟨.lengthError, ?_, rfl⟩))
      rw [rowBody, hread]
      rfl
    · refine Or.inr (Or.inr (Or.inr ⟨(), ?_⟩))
      rw [rowBody, hread]
      rfl
  stuck := by
    intro x s _ hs
    refine ⟨(), ?_, trivial⟩
    rw [rowBody, deserialize_of_not_good P hs.1]
    rfl

theorem readRows_eq_readLoop (P : Platform) (fuel : Nat) (s : IStream) :
    (MemTable.readRows P fuel s).2 = RecordLoop.readLoop .diverges (rowBody P) fuel () s := by
  induction fuel generalizing s with
  | zero => rfl
  | succ fuel ih =>
    rw [MemTable.readRows, RecordLoop.readLoop, rowBody]
    split
    · rfl
    · cases deserialize P s with
      | error fault => rfl
      | ok read => exact ih read.2.peek

theorem readRows_ends_iff (P : Platform) (s : IStream) :
    Ends (MemTable.readRows P (s.rest.length + 2) s).2 ↔ s.eof = true ∨ s.good = true ∧ ¬ RowsOverrun s.rest := by
  rw [readRows_eq_readLoop]
  exact (rowBody_reads P).readLoop_halts_iff diverges_not_exception (le_refl _) trivial

theorem SSTable.load_ends_iff (P : Platform) (table : SSTable) (s : IStream) :
    Ends (load P table s) ↔ s.eof = true ∨ s.good = true ∧ ¬ RowsOverrun s.rest := by
  rw [load, loadLoop_eq, Ends, RecordLoop.halts_map]
  exact readRows_ends_iff P s

theorem MemTable.restoreFromLog_ends_iff (P : Platform) (m : MemTable) (s : IStream) :
    Ends (restoreFromLog P m s) ↔ s.bad = true ∨ s.eof = true ∨ s.good = true ∧ ¬ RowsOverrun s.rest := by
  rw [restoreFromLog_eq, Ends, RecordLoop.halts_map, replayed]
  cases s.bad with
  | true => exact ⟨fun _ => Or.inl rfl, fun _ => rfl⟩
  | false =>
    rw [if_neg Bool.false_ne_true]
    refine (readRows_ends_iff P s).trans ?_
    simp

/-! ### Index files -/

def IsEntry (bytes : List UInt8) : Prop :=
  ∃ key hint, bytes = key ++ hint ∧ IsField 8 key ∧ IsField 8 hint

/-- The key or the hint of an entry overruns its variable. -/
inductive EntryOverruns : List UInt8 → Prop where
  | key {bytes : List UInt8} : FieldOverruns 8 bytes → EntryOverruns bytes
  | hint {key bytes : List UInt8} : IsField 8 key → FieldOverruns 8 bytes → EntryOverruns (key ++ bytes)

/-- The file id overruns its variable, or an entry behind whole entries does. -/
inductive IndexOverrun : List UInt8 → Prop where
  | fileId {bytes : List UInt8} : FieldOverruns 4 bytes → IndexOverrun bytes
  | entry {fileId bytes : List UInt8} : IsField 4 fileId → RecordLoop.Behind IsEntry EntryOverruns bytes →
      IndexOverrun (fileId ++ bytes)

theorem IndexOverrun.readField {bytes : List UInt8} (h : IndexOverrun bytes) :
    readField (IStream.ofBytes bytes) [0] (encodeLE 4 0) = .error .bufferOverflow ∨
      ∃ width fileId tail, readField (IStream.ofBytes bytes) [0] (encodeLE 4 0)
        = .ok (width, fileId, IStream.ofBytes tail) ∧ RecordLoop.Behind IsEntry EntryOverruns tail := by
  have hwidth : [(0 : UInt8)].length = 1 := rfl
  cases h with
  | fileId hover => exact Or.inl (readField_overruns hwidth (length_encodeLE 4 0) hover)
  | @entry field tail hfield hbehind =>
    obtain ⟨width, fileId, hread, -, -⟩ := readField_isField hwidth (length_encodeLE 4 0) hfield tail
    exact Or.inr ⟨width, fileId, tail, hread, hbehind⟩

namespace SSTableIndex

theorem loadEntry_eq (vars : LoadVars) (s : IStream) : loadEntry vars s = (do
    let (sizeOfKey, key, s) ← readField s vars.sizeOfKey vars.key
    let (sizeOfHint, hint, s) ← readField s vars.sizeOfHint vars.hint
    return (⟨sizeOfKey, key, sizeOfHint, hint⟩, s)) := by
  simp only [loadEntry, readField, bind_assoc, pure_bind]

theorem load_eq (s : IStream) : load s = (do
    let (_, fileId, s) ← readField s [0] (encodeLE 4 0)
    loadLoop (s.rest.length + 2) { fileId := UInt32.ofNat (decodeLE fileId) } {} s) := by
  simp only [load, readField, bind_assoc, pure_bind]

section entry

variable {vars : LoadVars} (hvars : vars.Sized)
include hvars

theorem loadEntry_isEntry {bytes : List UInt8} (h : IsEntry bytes) (tail : List UInt8) :
    ∃ vars', loadEntry vars (IStream.ofBytes (bytes ++ tail)) = .ok (vars', IStream.ofBytes tail) ∧ vars'.Sized := by
  obtain ⟨key, hint, rfl, hkey, hhint⟩ := h
  obtain ⟨sizeOfKey, key', hreadKey, hsizeOfKey, hkey'⟩ :=
    readField_isField hvars.sizeOfKey hvars.key hkey (hint ++ tail)
  obtain ⟨sizeOfHint, hint', hreadHint, hsizeOfHint, hhint'⟩ :=
    readField_isField hvars.sizeOfHint hvars.hint hhint tail
  refine ⟨⟨sizeOfKey, key', sizeOfHint, hint'⟩, ?_, ⟨hsizeOfKey, hkey', hsizeOfHint, hhint'⟩⟩
  rw [List.append_assoc, loadEntry_eq]
  simp only [hreadKey, hreadHint, bind, Except.bind]
  rfl

theorem loadEntry_overruns {bytes : List UInt8} (h : EntryOverruns bytes) :
    loadEntry vars (IStream.ofBytes bytes) = .error .bufferOverflow := by
  rw [loadEntry_eq]
  cases h with
  | key hover => simp only [readField_overruns hvars.sizeOfKey hvars.key hover, bind, Except.bind]
  | @hint key bytes hkey hover =>
    obtain ⟨sizeOfKey, key', hreadKey, -, -⟩ := readField_isField hvars.sizeOfKey hvars.key hkey bytes
    simp only [hreadKey, readField_overruns hvars.sizeOfHint hvars.hint hover, bind, Except.bind]

theorem loadEntry_cases (bytes : List UInt8) :
    EntryOverruns bytes ∨ (∃ head tail, bytes = head ++ tail ∧ IsEntry head) ∨
      ∃ vars', loadEntry vars (IStream.ofBytes bytes) = .ok (vars', IStream.exhausted) := by
  obtain hover | ⟨key, rest, rfl, hkey⟩ | ⟨sizeOfKey, key, hread⟩ :=
    readField_cases hvars.sizeOfKey hvars.key bytes
  · exact Or.inl (EntryOverruns.key hover)
  · obtain ⟨sizeOfKey, key', hreadKey, -, -⟩ := readField_isField hvars.sizeOfKey hvars.key hkey rest
    obtain hover | ⟨hint, rest, rfl, hhint⟩ | ⟨sizeOfHint, hint, hread⟩ :=
      readField_cases hvars.sizeOfHint hvars.hint rest
    · exact Or.inl (EntryOverruns.hint hkey hover)
    · exact Or.inr (Or.inl ⟨key ++ hint, rest, (List.append_assoc key hint rest).symm, key, hint, rfl, hkey, hhint⟩)
    · refine Or.inr (Or.inr ⟨⟨sizeOfKey, key', sizeOfHint, hint⟩, ?_⟩)
      rw [loadEntry_eq]
      simp only [hreadKey, hread, bind, Except.bind]
      rfl
  · refine Or.inr (Or.inr ⟨⟨sizeOfKey, key, vars.sizeOfHint, vars.hint⟩, ?_⟩)
    rw [loadEntry_eq]
    simp only [hread, readField_exhausted, bind, Except.bind]
    rfl

omit hvars in
theorem loadEntry_of_not_good (vars : LoadVars) {s : IStream} (h : s.good = false) :
    loadEntry vars s = .ok (vars, s.fail) := by
  rw [loadEntry_eq]
  simp only [readField_of_not_good h, readField_of_not_good s.good_fail, IStream.fail_fail, bind, Except.bind]
  rfl

end entry

/-- The entry in the variables goes into the table. -/
def placeEntry (t : SSTableIndex) (vars : LoadVars) : SSTableIndex × LoadVars :=
  (t.insertNew ⟨UInt64.ofNat (decodeLE vars.key)⟩ (hintOfBytes vars.hint), vars)

/-- The body of the loop, over the table and the variables. -/
def entryBody (x : SSTableIndex × LoadVars) (s : IStream) : Except Fault ((SSTableIndex × LoadVars) × IStream) :=
  (loadEntry x.2 s).map fun read => (placeEntry x.1 read.1, read.2)

theorem entryBody_reads :
    RecordLoop.Reads (fun fault => fault.isException = true) entryBody (fun x => x.2.Sized) IsEntry
      EntryOverruns where
  record_ne_nil := by
    rintro bytes ⟨key, hint, rfl, hkey, -⟩
    exact List.append_ne_nil_of_left_ne_nil hkey.ne_nil hint
  breaks_ne_nil := by
    intro bytes hbreaks
    cases hbreaks with
    | key hover => exact hover.ne_nil
    | hint hkey _ => exact List.append_ne_nil_of_left_ne_nil hkey.ne_nil _
  reads := by
    intro x head hx hentry tail
    obtain ⟨vars, hread, hvars⟩ := loadEntry_isEntry hx hentry tail
    refine ⟨placeEntry x.1 vars, ?_, hvars⟩
    rw [entryBody, hread]
    rfl
  not_halts := by
    intro x bytes hx hbreaks
    rw [entryBody, loadEntry_overruns hx hbreaks]
    exact Bool.false_ne_true
  cases := by
    intro x hx bytes
    obtain hbreaks | hentry | ⟨vars, hread⟩ := loadEntry_cases hx bytes
    · exact Or.inl hbreaks
    · exact Or.inr (Or.inl hentry)
    · refine Or.inr (Or.inr (Or.inr ⟨placeEntry x.1 vars, ?_⟩))
      rw [entryBody, hread]
      rfl
  stuck := by
    intro x s hx hs
    refine ⟨placeEntry x.1 x.2, ?_, hx⟩
    rw [entryBody, loadEntry_of_not_good x.2 hs.1]
    rfl

theorem loadLoop_eq_readLoop (fuel : Nat) (t : SSTableIndex) (vars : LoadVars) (s : IStream) :
    loadLoop fuel t vars s = (RecordLoop.readLoop .diverges entryBody fuel (t, vars) s).map Prod.fst := by
  induction fuel generalizing t vars s with
  | zero => rfl
  | succ fuel ih =>
    rw [loadLoop, RecordLoop.readLoop, entryBody]
    split
    · rfl
    · cases loadEntry vars s with
      | error fault => rfl
      | ok read => exact ih _ _ _

theorem loadLoop_ends_iff (t : SSTableIndex) {vars : LoadVars} (hvars : vars.Sized) (s : IStream) :
    Ends (loadLoop (s.rest.length + 2) t vars s) ↔
      s.eof = true ∨ s.good = true ∧ ¬ RecordLoop.Behind IsEntry EntryOverruns s.rest := by
  rw [loadLoop_eq_readLoop, Ends, RecordLoop.halts_map]
  exact entryBody_reads.readLoop_halts_iff diverges_not_exception (le_refl _) hvars

theorem load_ofBytes_ends_iff (bytes : List UInt8) : Ends (load (IStream.ofBytes bytes)) ↔ ¬ IndexOverrun bytes := by
  have hwidth : [(0 : UInt8)].length = 1 := rfl
  rw [load_eq]
  obtain hover | ⟨field, tail, rfl, hfield⟩ | ⟨width, fileId, hread⟩ :=
    readField_cases hwidth (length_encodeLE 4 0) bytes
  · rw [readField_overruns hwidth (length_encodeLE 4 0) hover]
    exact ⟨fun hends => absurd hends Bool.false_ne_true, fun hnot => absurd (IndexOverrun.fileId hover) hnot⟩
  · obtain ⟨width, fileId, hread, -, -⟩ := readField_isField hwidth (length_encodeLE 4 0) hfield tail
    rw [hread]
    refine (loadLoop_ends_iff _ initialVars_sized (IStream.ofBytes tail)).trans ?_
    constructor
    · rintro (heof | ⟨-, hnot⟩) hover
      · exact absurd heof Bool.false_ne_true
      · obtain hread' | ⟨_, _, tail', hread', hbehind⟩ := hover.readField
        · rw [hread] at hread'
          cases hread'
        · rw [hread] at hread'
          cases hread'
          exact hnot hbehind
    · intro hnot
      exact Or.inr ⟨rfl, fun hbehind => hnot (IndexOverrun.entry hfield hbehind)⟩
  · -- cut at the file id
    rw [hread]
    refine (loadLoop_ends_iff _ initialVars_sized IStream.exhausted).trans ?_
    refine ⟨fun _ hover => ?_, fun _ => Or.inl rfl⟩
    obtain hread' | ⟨_, _, tail', hread', -⟩ := hover.readField
    · rw [hread] at hread'
      cases hread'
    · rw [hread] at hread'
      cases hread'

theorem load_ends_iff (s : IStream) :
    Ends (load s) ↔ s.eof = true ∨ s.good = true ∧ ¬ IndexOverrun s.rest := by
  cases hgood : s.good with
  | false =>
    rw [load_eq, readField_of_not_good hgood]
    refine (loadLoop_ends_iff _ initialVars_sized s.fail).trans ?_
    simp
  | true =>
    rw [IStream.eq_ofBytes hgood, load_ofBytes_ends_iff]
    simp [IStream.ofBytes, IStream.eof]

end SSTableIndex

/-! ### Termination -/

/-- Loading ends if and only if the stream is at its end, or good and free of overruns; the replay also ends on a
bad stream. -/
theorem loading_ends_iff (P : Platform) (m : MemTable) (table : SSTable) (s : IStream) :
    (Ends (MemTable.restoreFromLog P m s) ↔
      s.bad = true ∨ s.eof = true ∨ s.good = true ∧ ¬ RowsOverrun s.rest) ∧
    (Ends (SSTable.load P table s) ↔ s.eof = true ∨ s.good = true ∧ ¬ RowsOverrun s.rest) ∧
    (Ends (SSTableIndex.load s) ↔ s.eof = true ∨ s.good = true ∧ ¬ IndexOverrun s.rest) :=
  ⟨MemTable.restoreFromLog_ends_iff P m s, SSTable.load_ends_iff P table s, SSTableIndex.load_ends_iff s⟩

/-- A stream whose file could not be opened, and an open one whose fail flag is set: neither is ever at its end. -/
theorem not_loading_ends_failed :
    ¬ Ends (MemTable.restoreFromLog plainPlatform {} IStream.closed) ∧
      ¬ Ends (SSTable.load plainPlatform ⟨[]⟩ IStream.closed) ∧
      ¬ Ends (SSTableIndex.load (IStream.ofBytes [0]).fail) :=
  ⟨Bool.false_ne_true, Bool.false_ne_true, Bool.false_ne_true⟩

end OmxDb
