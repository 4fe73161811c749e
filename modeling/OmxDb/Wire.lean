import OmxDb.Engine

/-!
# Requests and responses as bytes

A message is written as its `contentLength`, its fixed fields, the low 32 bits of the value's size and that many bytes
of the value. The size is taken when the message is written, `contentLength` when it is constructed, in 32-bit
arithmetic; neither assigning a field nor a wrap-around updates it. So the frame of a message is right, and the message
reads back from it, exactly if `contentLength` is the size of its content (`Request.lawful_iff`,
`Response.lawful_iff`), which a constructor ensures below `2 ^ 32` bytes.
-/

namespace OmxDb

open LittleEndian

/-! ### Values -/

/-- `const uint32_t valueSize = value.size()`, then that many bytes. -/
def writeValue (value : ByteString) : List UInt8 :=
  let valueSize := UInt32.ofNat value.size
  encodeLE 4 valueSize.toNat ++ value.bytes.take valueSize.toNat

/-- `value.resize(n); stream.read(value.data(), n)` on a value that may hold bytes. -/
def resizeAndRead (s : IStream) (value : ByteString) (n : Nat) : Except Fault (ByteString × IStream) :=
  let resized := value.bytes.take n ++ List.replicate (n - value.size) 0
  let (bytes, s') := s.read n
  (ByteString.ofBytes (bytes ++ resized.drop bytes.length)).map fun value => (value, s')

def readValue (s : IStream) (value : ByteString) : Except Fault (ByteString × IStream) := do
  let (valueSize, s) ← readInto s (encodeLE 4 0) 4
  resizeAndRead s value (decodeLE valueSize)

theorem length_writeValue (value : ByteString) :
    (writeValue value).length = 4 + value.size % 2 ^ 32 := by
  have hmod : (UInt32.ofNat value.size).toNat = value.size % 2 ^ 32 := UInt32.toNat_ofNat
  have hle : value.size % 2 ^ 32 ≤ value.bytes.length := Nat.mod_le _ _
  simp only [writeValue, List.length_append, length_encodeLE, List.length_take, hmod]
  omega

theorem ByteString.ofBytes_eq {bytes : List UInt8} (h : bytes.length < 2 ^ 63) :
    ByteString.ofBytes bytes = .ok ⟨bytes, h⟩ := dif_pos h

theorem resizeAndRead_ofBytes {head tail : List UInt8} (value : ByteString) {n : Nat} (hn : head.length = n)
    (hlt : n < 2 ^ 63) :
    resizeAndRead (IStream.ofBytes (head ++ tail)) value n
      = .ok (⟨head, hn ▸ hlt⟩, IStream.ofBytes tail) := by
  have hresized : (value.bytes.take n ++ List.replicate (n - value.size) 0).drop n = [] := by
    apply List.drop_of_length_le
    simp only [List.length_append, List.length_take, List.length_replicate, ByteString.size]
    omega
  rw [resizeAndRead, IStream.read_ofBytes head tail hn]
  simp only [hn, hresized, List.append_nil]
  rw [ByteString.ofBytes_eq (hn ▸ hlt)]
  rfl

theorem readValue_writeValue (value target : ByteString) (tail : List UInt8) :
    ∃ read, readValue (IStream.ofBytes (writeValue value ++ tail)) target = .ok (read, IStream.ofBytes tail) ∧
      read.bytes = value.bytes.take (value.size % 2 ^ 32) := by
  have hmod : (UInt32.ofNat value.size).toNat = value.size % 2 ^ 32 := UInt32.toNat_ofNat
  have hle : value.size % 2 ^ 32 ≤ value.bytes.length := Nat.mod_le _ _
  have hlt : value.size % 2 ^ 32 < 2 ^ 63 := lt_of_le_of_lt hle value.size_lt
  have hlen : (value.bytes.take (value.size % 2 ^ 32)).length = value.size % 2 ^ 32 := by
    rw [List.length_take]
    exact Nat.min_eq_left hle
  have hdecode : decodeLE (encodeLE 4 (value.size % 2 ^ 32)) = value.size % 2 ^ 32 :=
    decodeLE_encodeLE_of_lt (Nat.mod_lt _ (by decide))
  refine ⟨⟨value.bytes.take (value.size % 2 ^ 32), by rw [hlen]; exact hlt⟩, ?_, rfl⟩
  simp only [writeValue, hmod, readValue, List.append_assoc]
  rw [readInto_ofBytes (n := 4) (by simp) (by simp)]
  simp only [bind, Except.bind, hdecode]
  rw [resizeAndRead_ofBytes target hlen hlt]

theorem take_size_eq_iff (value : ByteString) :
    value.bytes.take (value.size % 2 ^ 32) = value.bytes ↔ value.size < 2 ^ 32 := by
  rw [List.take_eq_self_iff]
  show value.size ≤ value.size % 2 ^ 32 ↔ _
  omega

/-- Bytes that start with `contentLength` and hold a message of `fixed` bytes and a value are framed right, and the
value is not cut, exactly if `contentLength` is the size of the content. -/
theorem framed_and_iff {contentLength : UInt32} {fixed : Nat} {value : ByteString} {bytes : List UInt8}
    (htake : bytes.take 4 = encodeLE 4 contentLength.toNat)
    (hlength : bytes.length = 4 + (fixed + value.size % 2 ^ 32)) :
    decodeLE (bytes.take 4) = bytes.length - 4 ∧ value.size < 2 ^ 32 ↔
      contentLength.toNat = fixed + value.size := by
  have hlt := contentLength.toNat_lt
  rw [htake, hlength, decodeLE_encodeLE_uint32, Nat.add_sub_cancel_left]
  constructor
  · rintro ⟨hframed, hsize⟩
    rw [hframed, Nat.mod_eq_of_lt hsize]
  · intro h
    have hsize : value.size < 2 ^ 32 := by omega
    rw [Nat.mod_eq_of_lt hsize]
    exact ⟨h, hsize⟩

theorem toNat_constructed (fixed : UInt32) {value : ByteString} (h : fixed.toNat + value.size < 2 ^ 32) :
    (fixed + UInt32.ofNat value.size).toNat = fixed.toNat + value.size := by
  have hsize : value.size < UInt32.size := lt_of_le_of_lt (Nat.le_add_left _ _) h
  rw [UInt32.toNat_add, UInt32.toNat_ofNat_of_lt' hsize]
  exact Nat.mod_eq_of_lt h

/-! ### Requests -/

def Request.serialize (request : Request) : List UInt8 :=
  encodeLE 4 request.contentLength.toNat ++ ([request.requestType.code] ++
    (encodeLE 8 request.key.id.toNat ++ writeValue request.value))

/-- The fields of `request` that the buffer is too short for keep what they hold. -/
def Request.deserialize (request : Request) (buffer : List UInt8) : Except Fault Request := do
  let s := IStream.ofBytes buffer
  let (contentLength, s) ← readInto s (encodeLE 4 request.contentLength.toNat) 4
  let (requestType, s) ← readInto s [request.requestType.code] 1
  let (key, s) ← readInto s (encodeLE 8 request.key.id.toNat) 8
  let (value, _) ← readValue s request.value
  return ⟨UInt32.ofNat (decodeLE contentLength), ⟨requestType.headD 0⟩, ⟨UInt64.ofNat (decodeLE key)⟩, value⟩

/-- `operator==`. -/
def Request.equal (request other : Request) : Bool :=
  request.requestType = other.requestType && request.key = other.key && request.value = other.value

theorem Request.length_serialize (request : Request) :
    request.serialize.length = 4 + (13 + request.value.size % 2 ^ 32) := by
  simp only [Request.serialize, List.length_append, length_encodeLE, List.length_singleton, length_writeValue]
  omega

theorem Request.take_serialize (request : Request) :
    request.serialize.take 4 = encodeLE 4 request.contentLength.toNat :=
  List.take_left' (length_encodeLE 4 _)

theorem Request.deserialize_serialize (request target : Request) (tail : List UInt8) :
    ∃ value, target.deserialize (request.serialize ++ tail)
        = .ok ⟨request.contentLength, request.requestType, request.key, value⟩ ∧
      value.bytes = request.value.bytes.take (request.value.size % 2 ^ 32) := by
  obtain ⟨value, hread, hvalue⟩ := readValue_writeValue request.value target.value tail
  refine ⟨value, ?_, hvalue⟩
  simp only [Request.deserialize, Request.serialize, List.append_assoc]
  rw [readInto_ofBytes (n := 4) (by simp) (by simp)]
  simp only [bind, Except.bind]
  rw [readInto_ofBytes (n := 1) rfl rfl]
  simp only []
  rw [readInto_ofBytes (n := 8) (by simp) (by simp)]
  simp only [hread]
  simp [pure, Except.pure]

/-- The leading length is that of the rest, and the bytes read back as an equal request. -/
structure Request.Lawful (request : Request) : Prop where
  framed : decodeLE (request.serialize.take 4) = request.serialize.length - 4
  readsBack : ∀ target : Request, ∃ read, target.deserialize request.serialize = .ok read ∧
    read.equal request = true

theorem Request.readsBack_iff (request : Request) :
    (∀ target : Request, ∃ read, target.deserialize request.serialize = .ok read ∧ read.equal request = true) ↔
      request.value.size < 2 ^ 32 := by
  constructor
  · intro h
    obtain ⟨read, hread, hequal⟩ := h request
    obtain ⟨value, hread', hvalue⟩ := request.deserialize_serialize request []
    rw [List.append_nil, hread] at hread'
    cases hread'
    simp only [Request.equal, Bool.and_eq_true, decide_eq_true_eq] at hequal
    rw [hequal.2, eq_comm, take_size_eq_iff] at hvalue
    exact hvalue
  · intro hsize target
    obtain ⟨value, hread, hvalue⟩ := request.deserialize_serialize target []
    rw [List.append_nil] at hread
    refine ⟨_, hread, ?_⟩
    rw [(take_size_eq_iff request.value).mpr hsize] at hvalue
    simp [Request.equal, ByteString.ext hvalue]

theorem Request.lawful_iff (request : Request) :
    request.Lawful ↔ request.contentLength.toNat = 13 + request.value.size := by
  rw [← framed_and_iff request.take_serialize request.length_serialize, ← request.readsBack_iff]
  exact ⟨fun h => ⟨h.framed, h.readsBack⟩, fun h => ⟨h.1, h.2⟩⟩

theorem Request.make_lawful {requestType : RequestType} {key : Key} {value : ByteString}
    (h : 13 + value.size < 2 ^ 32) : (Request.make requestType key value).Lawful := by
  rw [Request.lawful_iff]
  exact toNat_constructed (0 + 1 + 8 + 4) h

/-! ### Responses -/

def Response.serialize (response : Response) : List UInt8 :=
  encodeLE 4 response.contentLength.toNat ++ ([response.responseStatus.code] ++ writeValue response.value)

def Response.deserialize (response : Response) (buffer : List UInt8) : Except Fault Response := do
  let s := IStream.ofBytes buffer
  let (contentLength, s) ← readInto s (encodeLE 4 response.contentLength.toNat) 4
  let (responseStatus, s) ← readInto s [response.responseStatus.code] 1
  let (value, _) ← readValue s response.value
  return ⟨UInt32.ofNat (decodeLE contentLength), ⟨responseStatus.headD 0⟩, value⟩

/-- `operator==`. -/
def Response.equal (response other : Response) : Bool :=
  response.responseStatus = other.responseStatus && response.value = other.value

theorem Response.length_serialize (response : Response) :
    response.serialize.length = 4 + (5 + response.value.size % 2 ^ 32) := by
  simp only [Response.serialize, List.length_append, length_encodeLE, List.length_singleton, length_writeValue]
  omega

theorem Response.take_serialize (response : Response) :
    response.serialize.take 4 = encodeLE 4 response.contentLength.toNat :=
  List.take_left' (length_encodeLE 4 _)

theorem Response.deserialize_serialize (response target : Response) (tail : List UInt8) :
    ∃ value, target.deserialize (response.serialize ++ tail)
        = .ok ⟨response.contentLength, response.responseStatus, value⟩ ∧
      value.bytes = response.value.bytes.take (response.value.size % 2 ^ 32) := by
  obtain ⟨value, hread, hvalue⟩ := readValue_writeValue response.value target.value tail
  refine ⟨value, ?_, hvalue⟩
  simp only [Response.deserialize, Response.serialize, List.append_assoc]
  rw [readInto_ofBytes (n := 4) (by simp) (by simp)]
  simp only [bind, Except.bind]
  rw [readInto_ofBytes (n := 1) rfl rfl]
  simp only [hread]
  simp [pure, Except.pure]

/-- The leading length is that of the rest, and the bytes read back as an equal response. -/
structure Response.Lawful (response : Response) : Prop where
  framed : decodeLE (response.serialize.take 4) = response.serialize.length - 4
  readsBack : ∀ target : Response, ∃ read, target.deserialize response.serialize = .ok read ∧
    read.equal response = true

theorem Response.readsBack_iff (response : Response) :
    (∀ target : Response, ∃ read, target.deserialize response.serialize = .ok read ∧ read.equal response = true) ↔
      response.value.size < 2 ^ 32 := by
  constructor
  · intro h
    obtain ⟨read, hread, hequal⟩ := h response
    obtain ⟨value, hread', hvalue⟩ := response.deserialize_serialize response []
    rw [List.append_nil, hread] at hread'
    cases hread'
    simp only [Response.equal, Bool.and_eq_true, decide_eq_true_eq] at hequal
    rw [hequal.2, eq_comm, take_size_eq_iff] at hvalue
    exact hvalue
  · intro hsize target
    obtain ⟨value, hread, hvalue⟩ := response.deserialize_serialize target []
    rw [List.append_nil] at hread
    refine ⟨_, hread, ?_⟩
    rw [(take_size_eq_iff response.value).mpr hsize] at hvalue
    simp [Response.equal, ByteString.ext hvalue]

theorem Response.lawful_iff (response : Response) :
    response.Lawful ↔ response.contentLength.toNat = 5 + response.value.size := by
  rw [← framed_and_iff response.take_serialize response.length_serialize, ← response.readsBack_iff]
  exact ⟨fun h => ⟨h.framed, h.readsBack⟩, fun h => ⟨h.1, h.2⟩⟩

theorem Response.make_lawful {responseStatus : ResponseStatus} {value : ByteString}
    (h : 5 + value.size < 2 ^ 32) : (Response.make responseStatus value).Lawful := by
  rw [Response.lawful_iff]
  exact toNat_constructed (0 + 1 + 4) h

/-! ### Messages however obtained -/

/-- Whatever made a message, the constructor, a reader or assignments to its fields, its bytes are framed right and
read back as an equal message if and only if `contentLength` is the size of its content. -/
theorem lawful_iff_contentLength (request : Request) (response : Response) :
    (request.Lawful ↔ request.contentLength.toNat = 13 + request.value.size) ∧
      (response.Lawful ↔ response.contentLength.toNat = 5 + response.value.size) :=
  ⟨request.lawful_iff, response.lawful_iff⟩

/-- A request that was given its value after it was constructed still announces 13 bytes. -/
theorem not_lawful_assigned :
    ¬ ({ Request.make .Put ⟨1⟩ ByteString.empty with value := .single 97 } : Request).Lawful := by
  rw [Request.lawful_iff]
  decide

end OmxDb
