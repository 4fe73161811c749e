import OmxDb.Index
import OmxDb.BloomFilter

/-!
# The storage engine

`StorageEngine` over the files of its directory. While a session runs, the content of `wal.bin` is the
`WriteAheadLog` of the memtable; the `Disk` holds it between sessions. A call returns the new state in
every case, next to its result, because an exception leaves the changes made before it.

Which of the three output files of a snapshot open is an argument (`SnapshotStreams`): writing through a
stream that did not open does nothing, and the bloom filter and the index check for it and throw. In the
same way `OpenFaults` says what fails while a directory is opened.
-/

namespace OmxDb

open LittleEndian

/-! ### Files -/

/-- `std::to_string`. -/
def toDecimal (n : Nat) : List Char := Nat.toDigits 10 n

def segmentFile (segment : Nat) : FileName := "segment_".toList ++ toDecimal segment ++ ".bin".toList

def indexFile (segment : Nat) : FileName := "index_".toList ++ toDecimal segment ++ ".bin".toList

/-- The files of a database directory; `none` is a file or directory that does not exist. -/
structure Disk where
  options : Option (List UInt8) := none
  wal : Option (List UInt8) := none
  bloom : Option (List UInt8) := none
  segmentDir : Option Dir := none
  indexDir : Option Dir := none

namespace Disk

def segment (disk : Disk) (name : FileName) : Option (List UInt8) :=
  disk.segmentDir.bind fun dir => dir.lookup name

def writeSegment (disk : Disk) (name : FileName) (bytes : List UInt8) : Disk :=
  { disk with segmentDir := disk.segmentDir.map fun dir => dir.insert name bytes }

def writeBloom (disk : Disk) (bytes : List UInt8) : Disk := { disk with bloom := some bytes }

def writeIndex (disk : Disk) (name : FileName) (bytes : List UInt8) : Disk :=
  { disk with indexDir := disk.indexDir.map fun dir => dir.insert name bytes }

end Disk

/-- `std::ifstream(path, std::ios::binary)`. -/
def openFile : Option (List UInt8) → IStream
  | some bytes => IStream.ofBytes bytes
  | none => IStream.closed

/-! ### Requests and responses -/

structure RequestType where
  code : UInt8
deriving DecidableEq, Repr

def RequestType.Get : RequestType := ⟨0⟩
def RequestType.Put : RequestType := ⟨1⟩
def RequestType.Delete : RequestType := ⟨2⟩

structure Request where
  contentLength : UInt32
  requestType : RequestType
  key : Key
  value : ByteString
deriving DecidableEq

/-- The constructor. -/
def Request.make (requestType : RequestType) (key : Key) (value : ByteString) : Request :=
  ⟨0 + 1 + 8 + 4 + UInt32.ofNat value.size, requestType, key, value⟩

structure ResponseStatus where
  code : UInt8
deriving DecidableEq, Repr

def ResponseStatus.Ok : ResponseStatus := ⟨0⟩
def ResponseStatus.NotFound : ResponseStatus := ⟨1⟩
def ResponseStatus.InvalidRequestType : ResponseStatus := ⟨2⟩
def ResponseStatus.UnknownError : ResponseStatus := ⟨3⟩

structure Response where
  contentLength : UInt32
  responseStatus : ResponseStatus
  value : ByteString
deriving DecidableEq

/-- The constructor. -/
def Response.make (responseStatus : ResponseStatus) (value : ByteString) : Response :=
  ⟨0 + 1 + 4 + UInt32.ofNat value.size, responseStatus, value⟩

/-! ### Engine state -/

def kFilterSize : Nat := 10000000
def kNumHashes : Nat := 7

instance : NeZero kFilterSize := ⟨by decide⟩

/-- A null compressor or hasher is `none`. -/
structure StorageEngine where
  memTable : MemTable := {}
  compressor : Option ICompression := none
  hasher : Option IHasher := none
  index : Index := {}
  segmentId : Nat := 0
  memTableLimit : Nat := 1 * 1024 * 1024
  opts : Options := {}
  bloomFilter : BloomFilter kFilterSize kNumHashes := {}

/-- An engine and the directory it was opened on. -/
structure Store where
  disk : Disk
  engine : StorageEngine

/-- Which output streams of a snapshot open. -/
structure SnapshotStreams where
  segment : Bool := true
  bloom : Bool := true
  index : Bool := true
deriving DecidableEq

/-- What fails while a directory is opened. -/
structure OpenFaults where
  segmentDir : Bool := false
  indexDir : Bool := false
  indexFile : FileName → Bool := fun _ => false
  bloom : Bool := false

namespace StorageEngine

/-! ### Snapshots -/

/-- The first block: write the segment, clear the memtable. -/
def snapshotSegment (opened : Bool) (segment : Nat) (s : Store) : Store where
  disk := if opened then s.disk.writeSegment (segmentFile segment) s.engine.memTable.dump else s.disk
  engine := { s.engine with memTable := s.engine.memTable.clear }

/-- The second block: add the keys, rewrite the filter file. -/
def snapshotBloom (P : Platform) (opened : Bool) (table : SSTable) (s : Store) :
    Store × Except Fault Unit :=
  let bloomFilter := s.engine.bloomFilter.addAll P (table.rows.map SSTableRow.key)
  let s := { s with engine := { s.engine with bloomFilter := bloomFilter } }
  if opened then ({ s with disk := s.disk.writeBloom bloomFilter.dump }, .ok ())
  else (s, .error (.runtimeError "invalid output stream"))

/-- The third block: write the index file, register the table. -/
def snapshotIndex (P : Platform) (opened : Bool) (segment : Nat) (table : SSTable) (s : Store) :
    Store × Except Fault Unit :=
  let tableIndex := SSTableIndex.ofTable (UInt32.ofNat segment) table
  if opened then
    let s := { s with disk := s.disk.writeIndex (indexFile segment) (tableIndex.dump P) }
    match s.engine.index.update tableIndex with
    | .error fault => (s, .error fault)
    | .ok index => ({ s with engine := { s.engine with index := index } }, .ok ())
  else (s, .error (.runtimeError "invalid output stream"))

def makeSnapshot (P : Platform) (opened : SnapshotStreams) (s : Store) : Store × Except Fault Unit :=
  let segment := s.engine.segmentId
  let s := { s with engine := { s.engine with segmentId := segment + 1 } }
  let table := s.engine.memTable.createSortedStringsTable
  let s := snapshotSegment opened.segment segment s
  match snapshotBloom P opened.bloom table s with
  | (s, .error fault) => (s, .error fault)
  | (s, .ok ()) => snapshotIndex P opened.index segment table s

/-! ### Writes -/

/-- The first part of `put`: compress, hash, insert. -/
def putRow (s : Store) (key : Key) (value : ByteString) : Except Fault Store :=
  match s.engine.compressor with
  | none => .error .nullPointer
  | some compressor =>
    match compressor.compress value with
    | .error fault => .error fault
    | .ok compressed =>
      match s.engine.hasher with
      | none => .error .nullPointer
      | some hasher =>
        let checksum := hasher.hash compressed
        .ok { s with engine := { s.engine with
          memTable := s.engine.memTable.put key compressed checksum } }

/-- `m_memTable->getApproximateSize() >= m_memTableLimit`. -/
def snapshotDue (s : Store) : Bool :=
  decide (s.engine.memTable.getApproximateSize ≥ s.engine.memTableLimit)

def put (P : Platform) (opened : SnapshotStreams) (s : Store) (key : Key) (value : ByteString) :
    Store × Except Fault Unit :=
  match putRow s key value with
  | .error fault => (s, .error fault)
  | .ok s => if snapshotDue s then makeSnapshot P opened s else (s, .ok ())

def remove (s : Store) (key : Key) : Store :=
  { s with engine := { s.engine with memTable := s.engine.memTable.remove key } }

/-! ### Reads -/

def findInMemory (s : Store) (key : Key) : Option (ByteString × UInt128) :=
  s.engine.memTable.get key

/-- The row at a hint; a read that comes up short leaves zero bytes in `data`. -/
def readRow (P : Platform) (disk : Disk) (hint : SearchHint) : Except Fault SSTableRow := do
  let stream := (openFile (disk.segment (segmentFile hint.fileId.toNat))).seekg hint.offset.toNat
  let (data, _) ← readString stream hint.size.toNat
  let (row, _) ← deserialize P (IStream.ofBytes data.bytes)
  return row

def findOnDisk (P : Platform) (s : Store) (key : Key) :
    Except Fault (Option (ByteString × UInt128)) :=
  if s.engine.bloomFilter.probablyContains P key then
    match s.engine.index.get key with
    | none => .ok none
    | some hint =>
      match readRow P s.disk hint with
      | .error fault => .error fault
      | .ok row => .ok (if row.entryType = .Remove then none else some (row.value, row.checksum))
  else .ok none

/-- The checksum test and the decompression of what a lookup found. -/
def finishGet (engine : StorageEngine) : Option (ByteString × UInt128) →
    Except Fault (Option ByteString)
  | none => .ok none
  | some (compressed, checksum) =>
    match engine.hasher with
    | none => .error .nullPointer
    | some hasher =>
      if hasher.hash compressed ≠ checksum then
        .error (.runtimeError "data corrupted: invalid checksum")
      else
        match engine.compressor with
        | none => .error .nullPointer
        | some compressor => (compressor.uncompress compressed).map some

/-- The value where `get` returns true, `none` where it returns false. -/
def get (P : Platform) (s : Store) (key : Key) : Except Fault (Option ByteString) :=
  match findInMemory s key with
  | some found => finishGet s.engine (some found)
  | none =>
    match findOnDisk P s key with
    | .error fault => .error fault
    | .ok found => finishGet s.engine found

/-- The response to an exception; what is not an exception is not caught. -/
def catchException (s : Store) (fault : Fault) : Store × Except Fault Response :=
  if fault.isException then (s, .ok (Response.make .UnknownError ByteString.empty))
  else (s, .error fault)

def handle (P : Platform) (opened : SnapshotStreams) (s : Store) (request : Request) :
    Store × Except Fault Response :=
  if request.requestType = .Get then
    match get P s request.key with
    | .error fault => catchException s fault
    | .ok (some value) => (s, .ok (Response.make .Ok value))
    | .ok none => (s, .ok (Response.make .NotFound ByteString.empty))
  else if request.requestType = .Put then
    match put P opened s request.key request.value with
    | (s, .error fault) => catchException s fault
    | (s, .ok ()) => (s, .ok (Response.make .Ok ByteString.empty))
  else if request.requestType = .Delete then
    (remove s request.key, .ok (Response.make .Ok ByteString.empty))
  else (s, .ok (Response.make .InvalidRequestType ByteString.empty))

/-! ### Opening and closing -/

def saveOptions (options : Options) : List UInt8 :=
  encodeLE 8 options.maxMemTableSize.toNat ++ (encodeLE 4 options.maxWalBufferSize.toNat ++
    ([options.compressionType.code] ++ [options.hashType.code]))

/-- A field the file is too short for keeps its value. -/
def loadOptions (options : Options) (s : IStream) : Except Fault Options := do
  let (maxMemTableSize, s) ← readInto s (encodeLE 8 options.maxMemTableSize.toNat) 8
  let (maxWalBufferSize, s) ← readInto s (encodeLE 4 options.maxWalBufferSize.toNat) 4
  let (compressionType, s) ← readInto s [options.compressionType.code] 1
  let (hashType, _) ← readInto s [options.hashType.code] 1
  return ⟨UInt64.ofNat (decodeLE maxMemTableSize), UInt32.ofNat (decodeLE maxWalBufferSize),
    ⟨compressionType.headD 0⟩, ⟨hashType.headD 0⟩⟩

/-- The options part of `open`: an existing file wins over the argument. -/
def openOptions (options : Options) (disk : Disk) : Disk × Except Fault Options :=
  match disk.options with
  | some bytes => (disk, loadOptions options (IStream.ofBytes bytes))
  | none => ({ disk with options := some (saveOptions options) }, .ok options)

/-- The memtable an existing log replays to. -/
def replayLog (P : Platform) : Option (List UInt8) → Except Fault MemTable
  | some bytes => MemTable.restoreFromLog P {} (IStream.ofBytes bytes)
  | none => .ok {}

/-- `if (!fs::exists(dir)) fs::create_directory(dir)`. -/
def createDirectory (fails : Bool) : Option Dir → Except Fault Dir
  | some dir => .ok dir
  | none => if fails then .error (.runtimeError "cannot create directory") else .ok ∅

/-- What `open` does once the log is recreated: directories, index, bloom filter. -/
def openTables (faults : OpenFaults) (e : StorageEngine) (disk : Disk) :
    Disk × Except Fault StorageEngine :=
  match createDirectory faults.segmentDir disk.segmentDir with
  | .error fault => (disk, .error fault)
  | .ok segmentDir =>
    let disk := { disk with segmentDir := some segmentDir }
    match createDirectory faults.indexDir disk.indexDir with
    | .error fault => (disk, .error fault)
    | .ok indexDir =>
      let disk := { disk with indexDir := some indexDir }
      match Index.load faults.indexFile indexDir {} with
      | .error fault => (disk, .error fault)
      | .ok index =>
        let e := { e with index := index }
        match disk.bloom with
        | none => (disk, .ok e)
        | some bytes =>
          if faults.bloom then (disk, .error (.runtimeError "invalid input stream"))
          else (disk, .ok { e with bloomFilter := e.bloomFilter.load bytes })

/-- `open` on a constructed engine. The log is replayed, then recreated, before anything else is loaded. -/
def «open» (P : Platform) (faults : OpenFaults) (options : Options) (e : StorageEngine) (disk : Disk) :
    Disk × Except Fault StorageEngine :=
  match openOptions options disk with
  | (disk, .error fault) => (disk, .error fault)
  | (disk, .ok opts) =>
    match replayLog P disk.wal with
    | .error fault => (disk, .error fault)
    | .ok memTable =>
      let e := { e with
        opts := opts
        compressor := some (createCompressor P opts.compressionType)
        hasher := createHasher P opts.hashType
        memTableLimit := opts.maxMemTableSize.toNat
        memTable := memTable.setWriteAheadLog }
      openTables faults e { disk with wal := some [] }

/-- Destruction: closing the log stream writes out its buffer. -/
def close (s : Store) : Disk :=
  match s.engine.memTable.wal with
  | some wal => { s.disk with wal := some wal.issued }
  | none => s.disk

end StorageEngine

end OmxDb
