import Mathlib.Data.List.AList
import Mathlib.Data.List.Sort
import Mathlib.Data.List.Lex
import Mathlib.Data.Char
import OmxDb.MemTable

/-!
# The index of a segment and the index of all segments

An `SSTableIndex` maps the keys of one segment to the byte range of their rows; `Index` keeps the tables
of all segments, most recently registered first, and answers with the first table that has the key.

An index file is a header and one entry per key, with no count: the loader reads entries until it meets
the end of the file, tests for it before a read and looks for it after one, and keeps its key and hint
variables from one entry to the next. `load_dump` reads a dumped table back when it has an entry.
-/

namespace OmxDb

open LittleEndian

/-- File names; the order of paths in one directory is the order of their names. -/
abbrev FileName := List Char

/-- A directory: contents by file name. -/
abbrev Dir := AList (fun _ : FileName => List UInt8)

structure FileSearchHint where
  offset : UInt32 := 0
  size : UInt32 := 0
deriving DecidableEq, Repr

structure SearchHint where
  fileId : UInt32 := 0
  offset : UInt32 := 0
  size : UInt32 := 0
deriving DecidableEq, Repr

/-! ### One segment -/

structure SSTableIndex where
  map : AList (fun _ : Key => FileSearchHint) := ∅
  fileId : UInt32 := 0

namespace SSTableIndex

def insert (t : SSTableIndex) (key : Key) (hint : FileSearchHint) : SSTableIndex :=
  { t with map := t.map.insert key hint }

def get (t : SSTableIndex) (key : Key) : Option FileSearchHint := t.map.lookup key

def getFileId (t : SSTableIndex) : UInt32 := t.fileId

/-- The loop of the constructor over a table, with its 32-bit offset. -/
def insertRows (t : SSTableIndex) (offset : UInt32) : List SSTableRow → SSTableIndex
  | [] => t
  | row :: rows =>
    insertRows (t.insert row.key ⟨offset, UInt32.ofNat row.getRowSize⟩)
      (offset + UInt32.ofNat row.getRowSize) rows

/-- `SSTableIndex(fileId, table)`. -/
def ofTable (fileId : UInt32) (table : SSTable) : SSTableIndex :=
  insertRows { fileId := fileId } 0 table.rows

/-- The entries in iteration order. -/
def entries (P : Platform) (t : SSTableIndex) : List (Key × FileSearchHint) :=
  (P.bucketOrder t.map.keys).filterMap fun key => (t.map.lookup key).map fun hint => (key, hint)

def dumpHint (hint : FileSearchHint) : List UInt8 :=
  encodeLE 4 hint.offset.toNat ++ encodeLE 4 hint.size.toNat

def dumpEntry (entry : Key × FileSearchHint) : List UInt8 :=
  [8] ++ (encodeLE 8 entry.1.id.toNat ++ ([8] ++ dumpHint entry.2))

def dumpHeader (fileId : UInt32) : List UInt8 := [4] ++ encodeLE 4 fileId.toNat

/-- The bytes `dump` writes to an open stream. -/
def dump (P : Platform) (t : SSTableIndex) : List UInt8 :=
  dumpHeader t.fileId ++ (t.entries P).flatMap dumpEntry

def hintOfBytes (bytes : List UInt8) : FileSearchHint :=
  ⟨UInt32.ofNat (decodeLE (bytes.take 4)), UInt32.ofNat (decodeLE ((bytes.drop 4).take 4))⟩

/-- `m_map.insert({key, hint})`: a key that is there keeps its hint. -/
def insertNew (t : SSTableIndex) (key : Key) (hint : FileSearchHint) : SSTableIndex :=
  if key ∈ t.map then t else t.insert key hint

/-- The variables of `load` that live through its loop. -/
structure LoadVars where
  sizeOfKey : List UInt8 := [0]
  key : List UInt8 := encodeLE 8 0
  sizeOfHint : List UInt8 := [0]
  hint : List UInt8 := dumpHint {}

/-- The four reads of one iteration. -/
def loadEntry (vars : LoadVars) (s : IStream) : Except Fault (LoadVars × IStream) := do
  let (sizeOfKey, s) ← readInto s vars.sizeOfKey 1
  let (key, s) ← readInto s vars.key (decodeLE sizeOfKey)
  let (sizeOfHint, s) ← readInto s vars.sizeOfHint 1
  let (hint, s) ← readInto s vars.hint (decodeLE sizeOfHint)
  return (⟨sizeOfKey, key, sizeOfHint, hint⟩, s)

/-- The loop of `load`; the fuel counts the tests of the loop condition. -/
def loadLoop : Nat → SSTableIndex → LoadVars → IStream → Except Fault SSTableIndex
  | 0, _, _, _ => .error .diverges
  | fuel + 1, t, vars, s =>
    if s.eof then .ok t
    else match loadEntry vars s with
      | .error fault => .error fault
      | .ok (vars, s) =>
        loadLoop fuel (t.insertNew ⟨UInt64.ofNat (decodeLE vars.key)⟩ (hintOfBytes vars.hint)) vars s.peek

/-- `load` on an open stream, into a table that is still empty. -/
def load (s : IStream) : Except Fault SSTableIndex := do
  let (sizeOfFileId, s) ← readInto s [0] 1
  let (fileId, s) ← readInto s (encodeLE 4 0) (decodeLE sizeOfFileId)
  loadLoop (s.rest.length + 2) { fileId := UInt32.ofNat (decodeLE fileId) } {} s

end SSTableIndex

/-! ### All segments -/

theorem Index.registered_empty (fileId : UInt32) :
    fileId ∈ (∅ : AList fun _ : UInt32 => Nat) ↔ ∃ t ∈ ([] : List SSTableIndex), t.fileId = fileId := by
  simp

/-- `m_map` sends a file id to a list node; nodes are numbered in the order they were pushed. Its ids are
those of the tables in the list. -/
structure Index where
  tableIndexes : List SSTableIndex := []
  map : AList (fun _ : UInt32 => Nat) := ∅
  registered : ∀ fileId, fileId ∈ map ↔ ∃ t ∈ tableIndexes, t.fileId = fileId := by
    exact Index.registered_empty

namespace Index

/-- `m_tableIndexes.push_front` and the entry of the new node in `m_map`. -/
def pushFront (index : Index) (tableIndex : SSTableIndex) : Index where
  tableIndexes := tableIndex :: index.tableIndexes
  map := index.map.insert tableIndex.fileId index.tableIndexes.length
  registered fileId := by
    rw [AList.mem_insert, index.registered]
    simp [eq_comm]

/-- `update(tableIndex)`: the untrusted path. -/
def update (index : Index) (tableIndex : SSTableIndex) : Except Fault Index :=
  if tableIndex.getFileId ∈ index.map then .error (.runtimeError "file id is already indexed")
  else .ok (index.pushFront tableIndex)

def getLoop (key : Key) : List SSTableIndex → Option SearchHint
  | [] => none
  | tableIndex :: tableIndexes =>
    match tableIndex.get key with
    | some fileHint => some ⟨tableIndex.getFileId, fileHint.offset, fileHint.size⟩
    | none => getLoop key tableIndexes

def get (index : Index) (key : Key) : Option SearchHint := getLoop key index.tableIndexes

/-- The files in the order of their paths; `unopenable` names those whose stream fails to open. -/
def loadFiles (unopenable : FileName → Bool) (dir : Dir) (index : Index) :
    List FileName → Except Fault Index
  | [] => .ok index
  | path :: paths =>
    if unopenable path then .error (.runtimeError ("bad stream: " ++ String.ofList path))
    else match SSTableIndex.load (IStream.ofBytes ((dir.lookup path).getD [])) with
      | .error fault => .error fault
      | .ok indexTable =>
        match index.update indexTable with
        | .error fault => .error fault
        | .ok index => loadFiles unopenable dir index paths

/-- `std::set<fs::path>` filled with the regular files of the directory. -/
def sortedIndexFiles (dir : Dir) : List FileName := dir.keys.insertionSort (· ≤ ·)

def load (unopenable : FileName → Bool) (dir : Dir) (index : Index) : Except Fault Index :=
  loadFiles unopenable dir index (sortedIndexFiles dir)

end Index

/-! ### Hints of a table -/

namespace SSTableIndex

theorem get_insert (t : SSTableIndex) (key key' : Key) (hint : FileSearchHint) :
    (t.insert key hint).get key' = if key = key' then some hint else t.get key' := by
  unfold get insert
  by_cases h : key = key'
  · subst h
    rw [AList.lookup_insert, if_pos rfl]
  · rw [AList.lookup_insert_ne (Ne.symm h), if_neg h]

theorem fileId_insertRows (t : SSTableIndex) (offset : UInt32) (rows : List SSTableRow) :
    (t.insertRows offset rows).fileId = t.fileId := by
  induction rows generalizing t offset with
  | nil => rfl
  | cons row rows ih => rw [insertRows, ih]; rfl

@[simp] theorem fileId_ofTable (fileId : UInt32) (table : SSTable) :
    (ofTable fileId table).fileId = fileId := fileId_insertRows _ _ _

theorem get_insertRows_of_not (t : SSTableIndex) (offset : UInt32) {rows : List SSTableRow} {key : Key}
    (h : rows.find? (fun row => row.key = key) = none) :
    (t.insertRows offset rows).get key = t.get key := by
  induction rows generalizing t offset with
  | nil => rfl
  | cons row rows ih =>
    rw [List.find?_cons] at h
    by_cases hkey : row.key = key
    · simp [hkey] at h
    · simp only [hkey, decide_false] at h
      rw [insertRows, ih _ _ h, get_insert, if_neg hkey]

/-- The hint of a row: the bytes before it, modulo the width of the offset, and its size. -/
theorem get_insertRows (t : SSTableIndex) (start : Nat) {before after : List SSTableRow} {row : SSTableRow}
    (hsorted : (before ++ row :: after).Pairwise fun a b => a.key < b.key) :
    (t.insertRows (UInt32.ofNat start) (before ++ row :: after)).get row.key
      = some ⟨UInt32.ofNat (start + (serializeAll before).length), UInt32.ofNat row.getRowSize⟩ := by
  induction before generalizing t start with
  | nil =>
    have hafter := (List.pairwise_cons.mp hsorted).1
    have hnone : after.find? (fun other => other.key = row.key) = none := by
      refine List.find?_eq_none.mpr fun other hmem => ?_
      simpa using ne_of_gt (hafter other hmem)
    rw [List.nil_append, insertRows, get_insertRows_of_not _ _ hnone, get_insert, if_pos rfl]
    simp
  | cons head before ih =>
    obtain ⟨-, htail⟩ := List.pairwise_cons.mp hsorted
    rw [List.cons_append, insertRows, ← UInt32.ofNat_add, ih _ _ htail, serializeAll_cons, List.length_append,
      length_serialize, Nat.add_assoc]

theorem get_ofTable_of_not (fileId : UInt32) (table : SSTable) {key : Key}
    (h : table.rows.find? (fun row => row.key = key) = none) :
    (ofTable fileId table).get key = none := by
  rw [ofTable, get_insertRows_of_not _ _ h]
  rfl

theorem get_ofTable (fileId : UInt32) (table : SSTable) {before after : List SSTableRow} {row : SSTableRow}
    (hsorted : table.rows.Pairwise fun a b => a.key < b.key) (hrows : table.rows = before ++ row :: after) :
    (ofTable fileId table).get row.key
      = some ⟨UInt32.ofNat (serializeAll before).length, UInt32.ofNat row.getRowSize⟩ := by
  rw [hrows] at hsorted
  rw [ofTable, hrows, ← Nat.zero_add (serializeAll before).length]
  exact get_insertRows { fileId := fileId } 0 hsorted

/-! ### Index files -/

theorem find?_entries (P : Platform) (t : SSTableIndex) (key : Key) :
    ((t.entries P).find? fun entry => entry.1 = key).map Prod.snd = t.get key := by
  have hmem : key ∈ P.bucketOrder t.map.keys ↔ key ∈ t.map := by
    rw [(P.bucketOrder_perm _).mem_iff, AList.mem_keys]
  unfold entries get
  generalize P.bucketOrder t.map.keys = keys at hmem
  have hnone : ∀ keys : List Key, key ∉ keys →
      ((keys.filterMap fun key => (t.map.lookup key).map fun hint => (key, hint)).find?
        fun entry => entry.1 = key) = none := by
    intro keys hnot
    refine List.find?_eq_none.mpr fun entry hentry => ?_
    obtain ⟨key', hkey', hlookup⟩ := List.mem_filterMap.mp hentry
    obtain ⟨hint, _, rfl⟩ := Option.map_eq_some_iff.mp hlookup
    rw [decide_eq_true_eq]
    rintro rfl
    exact hnot hkey'
  by_cases hkey : key ∈ t.map
  · obtain ⟨hint, hlookup⟩ := Option.isSome_iff_exists.mp (AList.lookup_isSome.mpr hkey)
    rw [hlookup]
    have hin := hmem.mpr hkey
    clear hmem
    induction keys with
    | nil => simp at hin
    | cons head keys ih =>
      by_cases heq : head = key
      · subst heq
        simp [hlookup]
      · have hin' : key ∈ keys := (List.mem_cons.mp hin).resolve_left (Ne.symm heq)
        rw [List.filterMap_cons]
        cases hhead : t.map.lookup head with
        | none => exact ih hin'
        | some hint' =>
          rw [Option.map_some]
          dsimp only
          rw [List.find?_cons_of_neg (by simpa using heq)]
          exact ih hin'
  · rw [hnone keys fun hin => hkey (hmem.mp hin), AList.lookup_eq_none.mpr hkey, Option.map_none]

theorem entries_eq_nil {P : Platform} {t : SSTableIndex} : t.entries P = [] ↔ ∀ key, t.get key = none := by
  constructor
  · intro h key
    rw [← find?_entries P, h]
    rfl
  · intro h
    refine List.eq_nil_iff_forall_not_mem.mpr fun entry hmem => ?_
    obtain ⟨key, _, hlookup⟩ := List.mem_filterMap.mp hmem
    rw [show t.map.lookup key = none from h key] at hlookup
    cases hlookup

theorem get_insertNew (t : SSTableIndex) (key key' : Key) (hint : FileSearchHint) :
    (t.insertNew key hint).get key'
      = (t.get key').or (if key = key' then some hint else none) := by
  unfold insertNew
  by_cases hmem : key ∈ t.map
  · rw [if_pos hmem]
    by_cases heq : key = key'
    · subst heq
      obtain ⟨hint', hlookup⟩ := Option.isSome_iff_exists.mp (AList.lookup_isSome.mpr hmem)
      simp [get, hlookup]
    · simp [heq]
  · rw [if_neg hmem, get_insert]
    by_cases heq : key = key'
    · subst heq
      simp [get, AList.lookup_eq_none.mpr hmem]
    · simp [heq]

/-- The entries inserted by the loop, in the order they are read. -/
def addEntries (t : SSTableIndex) (entries : List (Key × FileSearchHint)) : SSTableIndex :=
  entries.foldl (fun t entry => t.insertNew entry.1 entry.2) t

theorem fileId_insertNew (t : SSTableIndex) (key : Key) (hint : FileSearchHint) :
    (t.insertNew key hint).fileId = t.fileId := by
  unfold insertNew
  split <;> rfl

@[simp] theorem fileId_addEntries (t : SSTableIndex) (entries : List (Key × FileSearchHint)) :
    (t.addEntries entries).fileId = t.fileId := by
  induction entries generalizing t with
  | nil => rfl
  | cons entry entries ih => exact (ih _).trans (fileId_insertNew t entry.1 entry.2)

theorem get_addEntries (t : SSTableIndex) (entries : List (Key × FileSearchHint)) (key : Key) :
    (t.addEntries entries).get key
      = (t.get key).or ((entries.find? fun entry => entry.1 = key).map Prod.snd) := by
  induction entries generalizing t with
  | nil => simp [addEntries]
  | cons entry entries ih =>
    have hfold : t.addEntries (entry :: entries)
        = (t.insertNew entry.1 entry.2).addEntries entries := rfl
    rw [hfold, ih, get_insertNew, Option.or_assoc, List.find?_cons]
    by_cases heq : entry.1 = key
    · simp [heq]
    · simp [heq]

/-- The loop variables have the sizes of their types. -/
structure LoadVars.Sized (vars : LoadVars) : Prop where
  sizeOfKey : vars.sizeOfKey.length = 1
  key : vars.key.length = 8
  sizeOfHint : vars.sizeOfHint.length = 1
  hint : vars.hint.length = 8

@[simp] theorem length_dumpHint (hint : FileSearchHint) : (dumpHint hint).length = 8 := by
  simp [dumpHint]

@[simp] theorem length_dumpEntry (entry : Key × FileSearchHint) : (dumpEntry entry).length = 18 := by
  simp [dumpEntry]

theorem length_flatMap_dumpEntry (entries : List (Key × FileSearchHint)) :
    (entries.flatMap dumpEntry).length = 18 * entries.length := by
  induction entries with
  | nil => rfl
  | cons entry entries ih =>
    rw [List.flatMap_cons, List.length_append, length_dumpEntry, ih, List.length_cons]
    omega

@[simp] theorem length_dumpHeader (fileId : UInt32) : (dumpHeader fileId).length = 5 := by
  simp [dumpHeader]

/-- The variables after an entry was read. -/
def entryVars (entry : Key × FileSearchHint) : LoadVars :=
  ⟨[8], encodeLE 8 entry.1.id.toNat, [8], dumpHint entry.2⟩

theorem entryVars_sized (entry : Key × FileSearchHint) : (entryVars entry).Sized :=
  ⟨rfl, length_encodeLE _ _, rfl, length_dumpHint _⟩

theorem initialVars_sized : ({} : LoadVars).Sized :=
  ⟨rfl, length_encodeLE _ _, rfl, length_dumpHint _⟩

theorem hintOfBytes_dumpHint (hint : FileSearchHint) : hintOfBytes (dumpHint hint) = hint := by
  have htake (bytes : List UInt8) (h : bytes.length = 4) : bytes.take 4 = bytes := by
    rw [← h, List.take_length]
  simp [hintOfBytes, dumpHint, htake]

theorem loadEntry_dumpEntry {vars : LoadVars} (hvars : vars.Sized) (entry : Key × FileSearchHint)
    (tail : List UInt8) :
    loadEntry vars (IStream.ofBytes (dumpEntry entry ++ tail))
      = .ok (entryVars entry, IStream.ofBytes tail) := by
  simp only [loadEntry, dumpEntry, List.append_assoc]
  rw [readInto_ofBytes (n := 1) rfl hvars.sizeOfKey]
  simp only [bind, Except.bind, decodeLE_singleton, show (8 : UInt8).toNat = 8 from rfl]
  rw [readInto_ofBytes (n := 8) (by simp) hvars.key]
  simp only []
  rw [readInto_ofBytes (n := 1) rfl hvars.sizeOfHint]
  simp only [decodeLE_singleton, show (8 : UInt8).toNat = 8 from rfl]
  rw [readInto_ofBytes (n := 8) (by simp) hvars.hint]
  rfl

/-- The loop reads whole entries, at least one of them, and stops at the end of the file. -/
theorem loadLoop_entries (entry : Key × FileSearchHint) (entries : List (Key × FileSearchHint))
    {fuel : Nat} (hfuel : entries.length + 2 ≤ fuel) (t : SSTableIndex) {vars : LoadVars}
    (hvars : vars.Sized) :
    loadLoop fuel t vars (IStream.ofBytes ((entry :: entries).flatMap dumpEntry))
      = .ok (t.addEntries (entry :: entries)) := by
  induction entries generalizing entry fuel t vars with
  | nil =>
    obtain ⟨fuel, rfl⟩ := Nat.exists_eq_add_of_le hfuel
    have hread := loadEntry_dumpEntry hvars entry []
    rw [List.append_nil] at hread
    rw [show ([] : List (Key × FileSearchHint)).length + 2 + fuel = fuel + 1 + 1 by simp; omega]
    simp only [List.flatMap_cons, List.flatMap_nil, List.append_nil, loadLoop, IStream.eof_ofBytes,
      hread, IStream.eof_peek_ofBytes_nil, if_true]
    simp [entryVars, hintOfBytes_dumpHint, addEntries]
  | cons next entries ih =>
    obtain ⟨fuel, rfl⟩ := Nat.exists_eq_add_of_le hfuel
    have hne : (next :: entries).flatMap dumpEntry ≠ [] := by simp [dumpEntry]
    rw [show (next :: entries).length + 2 + fuel = (entries.length + 2 + fuel) + 1 by simp; omega]
    rw [List.flatMap_cons, loadLoop, loadEntry_dumpEntry hvars]
    simp only [IStream.eof_ofBytes, Bool.false_eq_true, if_false]
    rw [IStream.peek_ofBytes_of_ne_nil hne, ih next (by omega) _ (entryVars_sized entry)]
    simp [entryVars, hintOfBytes_dumpHint, addEntries]

theorem load_header (fileId : UInt32) (tail : List UInt8) :
    load (IStream.ofBytes (dumpHeader fileId ++ tail))
      = loadLoop (tail.length + 2) { fileId := fileId } {} (IStream.ofBytes tail) := by
  simp only [load, dumpHeader, List.append_assoc]
  rw [readInto_ofBytes (n := 1) rfl rfl]
  simp only [bind, Except.bind, decodeLE_singleton, show (4 : UInt8).toNat = 4 from rfl]
  rw [readInto_ofBytes (n := 4) (by simp) (by simp)]
  simp [IStream.ofBytes]

theorem load_entries (fileId : UInt32) {entries : List (Key × FileSearchHint)} (hne : entries ≠ []) :
    load (IStream.ofBytes (dumpHeader fileId ++ entries.flatMap dumpEntry))
      = .ok (addEntries { fileId := fileId } entries) := by
  obtain ⟨entry, entries, rfl⟩ := List.exists_cons_of_ne_nil hne
  have hlen : entries.length + 2 ≤ ((entry :: entries).flatMap dumpEntry).length + 2 := by
    rw [length_flatMap_dumpEntry, List.length_cons]
    omega
  rw [load_header, loadLoop_entries entry entries hlen _ initialVars_sized]

/-- Index files round trip, whatever the iteration order, as soon as the table has an entry. -/
theorem load_dump (P : Platform) {t : SSTableIndex} {key : Key} (hkey : t.get key ≠ none) :
    ∃ loaded, load (IStream.ofBytes (t.dump P)) = .ok loaded ∧ loaded.fileId = t.fileId ∧
      ∀ key', loaded.get key' = t.get key' := by
  have hne : t.entries P ≠ [] := fun h => hkey (entries_eq_nil.mp h key)
  refine ⟨_, load_entries t.fileId hne, fileId_addEntries _ _, fun key' => ?_⟩
  rw [get_addEntries, find?_entries]
  rfl

end SSTableIndex

/-! ### Registering and loading -/

namespace Index

theorem getLoop_eq (key : Key) (tableIndexes : List SSTableIndex) :
    getLoop key tableIndexes = tableIndexes.findSome? fun t =>
      (t.get key).map fun hint => ⟨t.fileId, hint.offset, hint.size⟩ := by
  induction tableIndexes with
  | nil => rfl
  | cons t tableIndexes ih =>
    rw [getLoop, List.findSome?_cons]
    cases h : t.get key with
    | none => simpa using ih
    | some hint => rfl

theorem update_fresh {index : Index} {t : SSTableIndex}
    (h : ∀ t' ∈ index.tableIndexes, t'.fileId ≠ t.fileId) : index.update t = .ok (index.pushFront t) := by
  have hnot : t.getFileId ∉ index.map := by
    rw [index.registered]
    rintro ⟨t', hmem, hid⟩
    exact h t' hmem hid
  rw [update, if_neg hnot]

@[simp] theorem tableIndexes_pushFront (index : Index) (t : SSTableIndex) :
    (index.pushFront t).tableIndexes = t :: index.tableIndexes := rfl

theorem loadFiles_eq (dir : Dir) (index : Index) (files : List (FileName × SSTableIndex))
    (hload : ∀ file ∈ files,
      SSTableIndex.load (IStream.ofBytes ((dir.lookup file.1).getD [])) = .ok file.2)
    (hdistinct : files.Pairwise fun a b => a.2.fileId ≠ b.2.fileId)
    (hnew : ∀ file ∈ files, ∀ t ∈ index.tableIndexes, t.fileId ≠ file.2.fileId) :
    ∃ loaded, loadFiles (fun _ => false) dir index (files.map Prod.fst) = .ok loaded ∧
      loaded.tableIndexes = (files.map Prod.snd).reverse ++ index.tableIndexes := by
  induction files generalizing index with
  | nil => exact ⟨index, rfl, rfl⟩
  | cons file files ih =>
    obtain ⟨hfile, hfiles⟩ := List.pairwise_cons.mp hdistinct
    have hupdate := update_fresh (hnew file (by simp))
    obtain ⟨loaded, hloaded, htables⟩ := ih (index.pushFront file.2)
      (fun f hf => hload f (List.mem_cons_of_mem _ hf)) hfiles (by
        intro f hf t ht
        rcases List.mem_cons.mp ht with rfl | ht
        · exact hfile f hf
        · exact hnew f (List.mem_cons_of_mem _ hf) t ht)
    refine ⟨loaded, ?_, ?_⟩
    · simp only [List.map_cons, loadFiles, hload file (by simp), hupdate, hloaded]
      simp
    · rw [htables]
      simp

end Index

end OmxDb
