import OmxDb.Sessions

/-!
# Frames that are not requests

A server session reads four bytes, then as many as these say, and parses all of them without checking a read. The
length of the content is parsed and never looked at again, so a frame too short for its fields gives a request with
the defaults in their place, and a value may be cut or padded. `writesOnlyWholeRequests_iff` says which frames make a
session write to the database only what a request of just these bytes asks for: of the frames that ask for a write,
those that hold all fixed fields and a value of the size they declare.
-/

namespace OmxDb

namespace Networking

open LittleEndian Framing StorageEngine

/-! ### Frames -/

/-- A length, and as many bytes of any content. -/
structure Frame where
  contentLength : UInt32
  content : List UInt8
  length_content : content.length = contentLength.toNat

namespace Frame

def bytes (frame : Frame) : List UInt8 := encodeLE 4 frame.contentLength.toNat ++ frame.content

/-- The size of the value, where the content has it. -/
def valueSize (frame : Frame) : Nat := decodeLE ((frame.content.drop 9).take 4)

/-- The content asks for a put or a remove. -/
def AsksForWrite (frame : Frame) : Prop := frame.content.headD 0 = 1 ∨ frame.content.headD 0 = 2

/-- The content has type, key and size of a value, and a value of this size. -/
def Whole (frame : Frame) : Prop := 13 ≤ frame.content.length ∧ frame.valueSize = frame.content.length - 13

instance (frame : Frame) : Decidable frame.Whole :=
  inferInstanceAs (Decidable (13 ≤ frame.content.length ∧ frame.valueSize = frame.content.length - 13))

end Frame

theorem framed_frame (frame : Frame) :
    Reader.Framed 4 (fun data => (contentLengthOf data).toNat) frame.bytes := by
  have hlength : (encodeLE 4 frame.contentLength.toNat).length = 4 := length_encodeLE 4 _
  refine ⟨?_, ?_⟩
  · rw [Frame.bytes, List.length_append, hlength]
    omega
  · rw [Frame.bytes, List.take_left' hlength, List.length_append, hlength, frame.length_content, contentLengthOf,
      decodeLE_encodeLE_uint32, UInt32.ofNat_toNat]
    omega

theorem exists_frame {data : List UInt8} (h : Reader.Framed 4 (fun data => (contentLengthOf data).toNat) data) :
    ∃ frame : Frame, frame.bytes = data := by
  have hheader : (data.take 4).length = 4 := List.length_take_of_le h.header_le
  refine ⟨⟨contentLengthOf (data.take 4), data.drop 4, ?_⟩, ?_⟩
  · rw [List.length_drop]
    exact h.size.symm
  · show encodeLE 4 (contentLengthOf (data.take 4)).toNat ++ data.drop 4 = data
    rw [toNat_contentLengthOf (Nat.le_of_eq hheader), encodeLE_decodeLE_of_length hheader, List.take_append_drop]

/-! ### Receiving a frame -/

/-- A session that got the length of a frame and then its content. -/
def ServerSession.received (frame : Frame) : ServerSession :=
  let s : ServerSession := { phase := .reading }
  let s := { s with reader := s.reader.receive (encodeLE 4 frame.contentLength.toNat) }
  let s := s.onContentLengthReceived
  { s with reader := s.reader.receive frame.content }

theorem ServerSession.reader_received (frame : Frame) :
    (received frame).reader = { buffer := frame.bytes, remaining := 0, content := true } := by
  have htake : (encodeLE 4 frame.contentLength.toNat).take 4 = encodeLE 4 frame.contentLength.toNat :=
    List.take_of_length_le (by simp)
  have hlength : contentLengthOf (encodeLE 4 frame.contentLength.toNat) = frame.contentLength := by
    rw [contentLengthOf, decodeLE_encodeLE_uint32, UInt32.ofNat_toNat]
  simp only [received, onContentLengthReceived, Reader.receive, Reader.expect, List.nil_append, htake, hlength,
    frame.length_content, Nat.sub_self]
  rfl

/-! ### Parsing -/

theorem resizeAndRead_isOk (s : IStream) {n : Nat} (h : n < 2 ^ 63) :
    ∃ result, resizeAndRead s ByteString.empty n = .ok result := by
  have hread := s.length_read_le n
  have hsize : ((s.read n).1 ++ (ByteString.empty.bytes.take n
      ++ List.replicate (n - ByteString.empty.size) 0).drop (s.read n).1.length).length < 2 ^ 63 := by
    simp only [ByteString.empty, ByteString.size, List.take_nil, List.nil_append, List.length_nil, Nat.sub_zero,
      List.length_append, List.length_drop, List.length_replicate]
    omega
  unfold resizeAndRead
  dsimp only
  rw [ByteString.ofBytes_eq hsize]
  exact ⟨_, rfl⟩

theorem readValue_isOk (s : IStream) : ∃ result, readValue s ByteString.empty = .ok result := by
  unfold readValue
  obtain ⟨⟨valueSize, s'⟩, hsize⟩ := readInto_isOk s (encodeLE 4 0) (n := 4) (by simp)
  have hlength : valueSize.length = 4 := by
    unfold readInto at hsize
    have hle := s.length_read_le 4
    dsimp only at hsize
    split_ifs at hsize with hfits
    cases hsize
    simp only [List.length_append, List.length_drop, length_encodeLE]
    omega
  have hlt := decodeLE_lt valueSize
  rw [hlength] at hlt
  rw [hsize]
  exact resizeAndRead_isOk s' (lt_trans hlt (by decide))

/-- Any frame is parsed: to its length, the type of its first byte, or a get where there is none, and some key
and value. -/
theorem deserialize_frame (frame : Frame) :
    ∃ key value, (Request.make .Get ⟨0⟩ ByteString.empty).deserialize frame.bytes
      = .ok ⟨frame.contentLength, ⟨frame.content.headD 0⟩, key, value⟩ := by
  have htype : ∃ s, readInto (IStream.ofBytes frame.content) [RequestType.Get.code] 1
      = .ok ([frame.content.headD 0], s) := by
    cases frame.content with
    | nil => exact ⟨_, rfl⟩
    | cons byte rest => exact ⟨_, readByte_ofBytes byte rest rfl⟩
  obtain ⟨s₁, htype⟩ := htype
  obtain ⟨⟨key, s₂⟩, hkey⟩ := readInto_isOk s₁ (encodeLE 8 0) (n := 8) (by simp)
  obtain ⟨⟨value, s₃⟩, hvalue⟩ := readValue_isOk s₂
  refine ⟨⟨UInt64.ofNat (decodeLE key)⟩, value, ?_⟩
  simp only [Request.deserialize, Frame.bytes, Request.make]
  rw [readInto_ofBytes (n := 4) (by simp) (by simp)]
  simp only [bind, Except.bind, htype]
  rw [show ((⟨0⟩ : Key).id.toNat) = 0 from rfl, hkey]
  dsimp only
  rw [hvalue]
  simp [pure, Except.pure]

theorem deserialize_response_isOk (bytes : List UInt8) :
    ∃ response, (Response.make .UnknownError ByteString.empty).deserialize bytes = .ok response := by
  obtain ⟨⟨contentLength, s₁⟩, hlength⟩ := readInto_isOk (IStream.ofBytes bytes)
    (encodeLE 4 (Response.make .UnknownError ByteString.empty).contentLength.toNat) (n := 4) (by simp)
  obtain ⟨⟨status, s₂⟩, hstatus⟩ := readInto_isOk s₁ [ResponseStatus.UnknownError.code] (n := 1) (by simp)
  obtain ⟨⟨value, s₃⟩, hvalue⟩ := readValue_isOk s₂
  refine ⟨⟨UInt32.ofNat (decodeLE contentLength), ⟨status.headD 0⟩, value⟩, ?_⟩
  unfold Response.deserialize
  dsimp only
  rw [hlength]
  simp only [bind, Except.bind, Response.make, hstatus, hvalue]
  rfl

theorem Frame.Whole.serialize {frame : Frame} (h : frame.Whole) {request : Request}
    (hparse : (Request.make .Get ⟨0⟩ ByteString.empty).deserialize frame.bytes = .ok request) :
    frame.bytes = request.serialize := by
  obtain ⟨contentLength, content, hlength⟩ := frame
  obtain ⟨hfixed, hvalue⟩ := h
  dsimp only [valueSize] at hfixed hvalue
  have hlt := contentLength.toNat_lt
  obtain ⟨byte, rest, rfl⟩ : ∃ byte rest, content = byte :: rest :=
    List.exists_cons_of_length_pos (by omega)
  rw [List.length_cons] at hfixed hvalue hlength
  rw [List.drop_succ_cons] at hvalue
  -- the request that the fields spell
  have hkeyLength : (rest.take 8).length = 8 := List.length_take_of_le (by omega)
  have hsizeLength : ((rest.drop 8).take 4).length = 4 := by
    rw [List.length_take, List.length_drop]
    omega
  have hvalueLength : (rest.drop 12).length = rest.length - 12 := List.length_drop
  have hkeyLt := decodeLE_lt (rest.take 8)
  rw [hkeyLength] at hkeyLt
  have hkey : encodeLE 8 (UInt64.ofNat (decodeLE (rest.take 8))).toNat = rest.take 8 := by
    rw [UInt64.toNat_ofNat_of_lt' (show decodeLE (rest.take 8) < UInt64.size from hkeyLt),
      encodeLE_decodeLE_of_length hkeyLength]
  have hsize : (UInt32.ofNat (rest.drop 12).length).toNat = (rest.drop 12).length :=
    UInt32.toNat_ofNat_of_lt (show (rest.drop 12).length < 2 ^ 32 by omega)
  have hencodeSize : encodeLE 4 (rest.drop 12).length = (rest.drop 8).take 4 := by
    have hcount : (rest.drop 12).length = decodeLE ((rest.drop 8).take 4) := by omega
    rw [hcount, encodeLE_decodeLE_of_length hsizeLength]
  let spelled : Request := ⟨contentLength, ⟨byte⟩, ⟨UInt64.ofNat (decodeLE (rest.take 8))⟩,
    ⟨rest.drop 12, by omega⟩⟩
  have hspelled : Frame.bytes ⟨contentLength, byte :: rest, hlength⟩ = spelled.serialize := by
    simp only [spelled, Frame.bytes, Request.serialize, writeValue, ByteString.size, hkey, hsize, hencodeSize,
      List.take_length, List.singleton_append]
    congr 2
    rw [← List.drop_drop (i := 4) (j := 8), List.take_append_drop, List.take_append_drop]
  obtain ⟨value, hread, hbytes⟩ := spelled.deserialize_serialize (Request.make .Get ⟨0⟩ ByteString.empty) []
  rw [List.append_nil, ← hspelled, hparse, Except.ok.injEq] at hread
  have hwhole : spelled.value.bytes.take (spelled.value.size % 2 ^ 32) = spelled.value.bytes :=
    (take_size_eq_iff _).mpr (show (rest.drop 12).length < 2 ^ 32 by omega)
  have hrequest : request = spelled := by
    rw [hread, show value = spelled.value from ByteString.ext (hbytes.trans hwhole)]
  rw [hspelled, hrequest]

theorem Frame.whole_of_serialize {frame : Frame} {request : Request} (h : frame.bytes = request.serialize) :
    frame.Whole := by
  have hlength := congrArg List.length h
  rw [Request.length_serialize, Frame.bytes, List.length_append, length_encodeLE] at hlength
  have hcontent : frame.content = [request.requestType.code] ++
      (encodeLE 8 request.key.id.toNat ++ writeValue request.value) := (List.append_inj h (by simp)).2
  have hdrop : frame.content.drop 9 = writeValue request.value := by
    rw [hcontent, ← List.append_assoc]
    exact List.drop_left' (by simp)
  have hsize : frame.valueSize = request.value.size % 2 ^ 32 := by
    rw [valueSize, hdrop, writeValue, List.take_left' (length_encodeLE 4 _), decodeLE_encodeLE_uint32]
    exact UInt32.toNat_ofNat
  exact ⟨by omega, by omega⟩

/-! ### Handling a frame -/

theorem handle_of_no_write (P : Platform) (opened : SnapshotStreams) (store : Store) {request : Request}
    (h : ¬ (request.requestType = .Put ∨ request.requestType = .Delete)) :
    (handle P opened store request).1 = store := by
  rw [not_or] at h
  unfold handle
  rw [if_neg h.1, if_neg h.2]
  split_ifs
  · split
    · unfold catchException
      split <;> rfl
    · rfl
    · rfl
  · rfl

/-- With this frame a session calls `handle` once; if that is a put or a remove, the frame is what `serialize` writes
of the request, and if not, the database is left as it was. -/
def WritesOnlyWholeRequests (P : Platform) (opened : SnapshotStreams) (store : Store) (frame : Frame) : Prop :=
  ∃ request response,
    ((ServerSession.received frame).onRequestReceived P opened store).1.handled = [(request, response)] ∧
    (request.requestType = .Put ∨ request.requestType = .Delete → frame.bytes = request.serialize) ∧
    (¬ (request.requestType = .Put ∨ request.requestType = .Delete) → (handle P opened store request).1 = store)

theorem handled_received (P : Platform) (opened : SnapshotStreams) (store : Store) {frame : Frame} {request : Request}
    (hparse : (Request.make .Get ⟨0⟩ ByteString.empty).deserialize frame.bytes = .ok request) :
    ((ServerSession.received frame).onRequestReceived P opened store).1.handled
      = [(request, (handle P opened store request).2)] := by
  have hbuffer : (ServerSession.received frame).reader.buffer = frame.bytes := by
    rw [ServerSession.reader_received]
  unfold ServerSession.onRequestReceived ServerSession.processRequest
  rw [hbuffer, hparse]
  dsimp only
  cases (handle P opened store request).2 <;> rfl

/-- Whatever the database, a frame makes a session write only what a request of these bytes asks for if and only if
it asks for no write or is whole. -/
theorem writesOnlyWholeRequests_iff (P : Platform) (opened : SnapshotStreams) (store : Store) (frame : Frame) :
    WritesOnlyWholeRequests P opened store frame ↔ (frame.AsksForWrite → frame.Whole) := by
  obtain ⟨key, value, hparse⟩ := deserialize_frame frame
  have hhandled := handled_received P opened store hparse
  have hasks : frame.AsksForWrite ↔ (⟨frame.content.headD 0⟩ : RequestType) = .Put
      ∨ (⟨frame.content.headD 0⟩ : RequestType) = .Delete := by
    simp [Frame.AsksForWrite, RequestType.Put, RequestType.Delete]
  rw [hasks]
  constructor
  · rintro ⟨request, response, hcalls, hwrites, -⟩ hwrite
    rw [hhandled, List.cons.injEq, Prod.mk.injEq] at hcalls
    rw [← hcalls.1.1] at hwrites
    exact Frame.whole_of_serialize (hwrites hwrite)
  · intro hcond
    refine ⟨_, _, hhandled, ?_, handle_of_no_write P opened store⟩
    intro hwrite
    exact (hcond hwrite).serialize hparse

/-- A content of the one byte that stands for a put stores the empty value under key 0. -/
theorem not_writesOnlyWholeRequests_byte :
    ∃ s : Store, «open» plainPlatform {} { plainOptions with maxMemTableSize := 1024 } {} {} = (s.disk, .ok s.engine) ∧
      s.engine.memTable.rows = [] ∧
      (handle plainPlatform {} s ⟨1, .Put, ⟨0⟩, ByteString.empty⟩).1.engine.memTable.rows
        = [⟨⟨0⟩, ByteString.empty, .Put, (0, 0)⟩] ∧
      ((ServerSession.received ⟨1, [1], rfl⟩).onRequestReceived plainPlatform {} s).1.handled
        = [(⟨1, .Put, ⟨0⟩, ByteString.empty⟩, .ok (Response.make .Ok ByteString.empty))] ∧
      ¬ WritesOnlyWholeRequests plainPlatform {} s ⟨1, [1], rfl⟩ := by
  refine ⟨⟨_, _⟩, rfl, rfl, rfl, rfl, ?_⟩
  rintro ⟨request, response, hcalls, hwrites, -⟩
  have hrequest : request = ⟨1, .Put, ⟨0⟩, ByteString.empty⟩ := by
    have hhandled := congrArg (List.map Prod.fst) hcalls
    exact (List.cons.inj hhandled).1.symm
  rw [hrequest] at hwrites
  exact absurd (hwrites (Or.inl rfl)) (by decide)

end Networking

end OmxDb
