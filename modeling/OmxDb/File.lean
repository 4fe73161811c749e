import OmxDb.Types
import OmxDb.Lib.Runs
import OmxDb.Lib.GrowableArray

/-!
# Files as growable arrays

`File` writes in place, through a mapped region, into a file that it creates and makes longer first where it has to.
So a run of writes is the growable array of these writes (`write_eq`, `run_eq`), as long as the file can be made
that long. It can be created only under a path with a directory in it: of a bare name `parent_path()` is empty, which
names no directory, though the file lies in the current one. `behaves_iff` says that nothing else goes wrong, in the
bounds checks included: where `offset + size` wraps around, the check of `read` passes, and the mapping or the string
refuses.
-/

namespace OmxDb

open GrowableArray

/-- What `File` asks of the system: the directories there are, the largest size `resize_file` takes, which is an
`off_t`, and the constructor of `mapped_region` on a file of a size, with an offset and a size, or what it throws. -/
structure FileSystem where
  directories : String → Bool
  maxFileSize : Nat
  maxFileSize_lt : maxFileSize < 2 ^ 63
  mapRegion : Nat → UInt64 → UInt64 → Except String Unit

namespace FileSystem

/-- `fs::exists` of a directory; nothing has the empty name. -/
def «exists» (system : FileSystem) (path : String) : Bool := path ≠ "" && system.directories path

/-- `fs::resize_file`. -/
def resizeFile (system : FileSystem) (content : List UInt8) (size : UInt64) : Except Fault (List UInt8) :=
  if size.toNat ≤ system.maxFileSize then .ok (resize 0 content size.toNat)
  else .error (.runtimeError "cannot resize file")

/-- A range of the file can be mapped, and a range that starts where no offset is cannot. -/
structure Documented (system : FileSystem) : Prop where
  maps : ∀ (fileSize : Nat) (offset size : UInt64), 0 < size.toNat → offset.toNat + size.toNat ≤ fileSize →
    fileSize ≤ system.maxFileSize → system.mapRegion fileSize offset size = .ok ()
  refuses : ∀ (fileSize : Nat) (offset size : UInt64), 2 ^ 63 ≤ offset.toNat →
    ∃ what, system.mapRegion fileSize offset size = .error what

end FileSystem

namespace File

/-! ### Calls -/

variable (system : FileSystem) (parentPath : String)

/-- `parentPath` is `m_filePath.parent_path()`, and the new file is empty. -/
def create : Except Fault (List UInt8) :=
  if system.exists parentPath then .ok [] else .error (.runtimeError "invalid directory")

/-- The file, if there is one, and how the call ends. -/
def write (content : Option (List UInt8)) (offset : UInt64) (src : ByteString) :
    Option (List UInt8) × Except Fault Unit :=
  match content.elim (create system parentPath) .ok with
  | .error fault => (content, .error fault)
  | .ok file =>
    let last := offset + UInt64.ofNat src.size
    match if last > UInt64.ofNat file.length then system.resizeFile file last else .ok file with
    | .error fault => (some file, .error fault)
    | .ok file =>
      match system.mapRegion file.length offset (UInt64.ofNat src.size) with
      | .error what => (some file, .error (.runtimeError what))
      | .ok () =>
        -- a store behind the end of the file
        if file.length < offset.toNat + src.size then (some file, .error .bufferOverflow)
        else (some (overwrite file offset.toNat src.bytes), .ok ())

def append (content : Option (List UInt8)) (src : ByteString) : Option (List UInt8) × Except Fault Unit :=
  write system parentPath content (content.elim 0 fun file => UInt64.ofNat file.length) src

theorem length_slice_lt {size : Nat} (h : size < 2 ^ 63) (file : List UInt8) (offset : Nat) :
    (slice file offset size).length < 2 ^ 63 :=
  lt_of_le_of_lt (length_slice_le file offset size) h

theorem length_resize_lt {size : Nat} (h : size < 2 ^ 63) (bytes : List UInt8) :
    (resize 0 bytes size).length < 2 ^ 63 := by
  rwa [length_resize]

/-- `dst` after the call, and how it ends. -/
def read (content : Option (List UInt8)) (offset size : UInt64) (dst : ByteString) : ByteString × Except Fault Unit :=
  match content with
  | none => (dst, .error (.runtimeError "file not exist"))
  | some file =>
    if offset + size > UInt64.ofNat file.length then (dst, .error (.runtimeError "invalid size and offset"))
    else match system.mapRegion file.length offset size with
      | .error what => (dst, .error (.runtimeError what))
      | .ok () =>
        if h : size.toNat < 2 ^ 63 then
          -- a load behind the end of the file
          if file.length < offset.toNat + size.toNat then
            (⟨resize 0 dst.bytes size.toNat, length_resize_lt h dst.bytes⟩, .error .bufferOverflow)
          else (⟨slice file offset.toNat size.toNat, length_slice_lt h file offset.toNat⟩, .ok ())
        else (dst, .error .lengthError)

/-- A call that changes the file. -/
inductive Call where
  | write (offset : UInt64) (src : ByteString)
  | append (src : ByteString)

/-- The file after a call. -/
def call (content : Option (List UInt8)) : Call → Option (List UInt8)
  | .write offset src => (write system parentPath content offset src).1
  | .append src => (append system parentPath content src).1

/-! ### The array -/

/-- What a call makes of the array it is about; the end of no file is 0. -/
def reference (array : Option (List UInt8)) : Call → Option (List UInt8)
  | .write offset src => some (GrowableArray.write 0 (array.getD []) offset.toNat src.bytes)
  | .append src => some (GrowableArray.write 0 (array.getD []) (array.getD []).length src.bytes)

/-- There is something to write, and the sum of offset and size is one of 64 bits. -/
def Call.Allowed : Call → Prop
  | .write offset src => 0 < src.size ∧ offset.toNat + src.size < 2 ^ 64
  | .append src => 0 < src.size

/-- A file there is, is no longer than files can be. -/
def Holds (content : Option (List UInt8)) : Prop := ∀ file, content = some file → file.length ≤ system.maxFileSize

/-- A read throws and leaves `dst` alone where there is no array or its end is passed, and gives a slice elsewhere. -/
def ReadsLike (content array : Option (List UInt8)) : Prop :=
  ∀ (offset size : UInt64) (dst : ByteString), 0 < size.toNat →
    (((read system content offset size dst).1 = dst ∧
        ∃ fault, (read system content offset size dst).2 = .error fault ∧ fault.isException = true) ↔
      ∀ bytes, array = some bytes → bytes.length < offset.toNat + size.toNat) ∧
    ∀ bytes, array = some bytes → offset.toNat + size.toNat ≤ bytes.length →
      (read system content offset size dst).2 = .ok () ∧
      (read system content offset size dst).1.bytes = slice bytes offset.toNat size.toNat

/-- After the calls the file is the array, and reads like it. -/
def Behaves (initial : Option (List UInt8)) (calls : List Call) : Prop :=
  Runs.run (call system parentPath) initial calls = Runs.run reference initial calls ∧
    ReadsLike system (Runs.run (call system parentPath) initial calls) (Runs.run reference initial calls)

variable {system parentPath}

/-! ### Reads -/

theorem toNat_length {file : List UInt8} (h : file.length ≤ system.maxFileSize) :
    (UInt64.ofNat file.length).toNat = file.length := by
  have hmax := system.maxFileSize_lt
  apply UInt64.toNat_ofNat_of_lt'
  rw [UInt64.size]
  omega

section read

variable (hdoc : system.Documented) {file : List UInt8} (hfile : file.length ≤ system.maxFileSize)
  {offset size : UInt64}
include hdoc hfile

theorem read_behind (hbehind : file.length < offset.toNat + size.toNat) (dst : ByteString) :
    (read system (some file) offset size dst).1 = dst ∧
      ∃ fault, (read system (some file) offset size dst).2 = .error fault ∧ fault.isException = true := by
  have hlength := toNat_length hfile
  have hoffset := offset.toNat_lt
  have hsize := size.toNat_lt
  unfold read
  dsimp only
  by_cases hcheck : offset + size > UInt64.ofNat file.length
  · rw [if_pos hcheck]
    exact ⟨rfl, _, rfl, rfl⟩
  · -- the sum wrapped around: the offset is none, or the size is none of a string
    rw [if_neg hcheck]
    rw [gt_iff_lt, UInt64.lt_iff_toNat_lt, UInt64.toNat_add, hlength] at hcheck
    rcases Nat.lt_or_ge size.toNat (2 ^ 63) with hshort | hlong
    · obtain ⟨what, hrefuse⟩ := hdoc.refuses file.length offset size (by omega)
      rw [hrefuse]
      exact ⟨rfl, _, rfl, rfl⟩
    · cases hmap : system.mapRegion file.length offset size with
      | error what => exact ⟨rfl, _, rfl, rfl⟩
      | ok _ =>
        dsimp only
        rw [dif_neg (by omega)]
        exact ⟨rfl, _, rfl, rfl⟩

theorem read_inside (hpos : 0 < size.toNat) (hinside : offset.toNat + size.toNat ≤ file.length) (dst : ByteString) :
    (read system (some file) offset size dst).2 = .ok () ∧
      (read system (some file) offset size dst).1.bytes = slice file offset.toNat size.toNat := by
  have hlength := toNat_length hfile
  have hmax := system.maxFileSize_lt
  have hsize : size.toNat < 2 ^ 63 := by omega
  have hread : read system (some file) offset size dst
      = (⟨slice file offset.toNat size.toNat, length_slice_lt hsize file offset.toNat⟩, .ok ()) := by
    have hcheck : ¬ offset + size > UInt64.ofNat file.length := by
      rw [gt_iff_lt, UInt64.lt_iff_toNat_lt, UInt64.toNat_add, hlength]
      omega
    unfold read
    dsimp only
    rw [if_neg hcheck, hdoc.maps file.length offset size hpos hinside hfile]
    dsimp only
    rw [dif_pos hsize, if_neg (by omega)]
  rw [hread]
  exact ⟨rfl, rfl⟩

end read

theorem readsLike_self (hdoc : system.Documented) {content : Option (List UInt8)} (h : Holds system content) :
    ReadsLike system content content := by
  intro offset size dst hpos
  cases content with
  | none =>
    refine ⟨iff_of_true ⟨rfl, _, rfl, rfl⟩ ?_, ?_⟩
    · intro bytes hbytes
      cases hbytes
    · intro bytes hbytes
      cases hbytes
  | some file =>
    have hfile := h file rfl
    simp only [Option.some.injEq, forall_eq']
    rcases Nat.lt_or_ge file.length (offset.toNat + size.toNat) with hbehind | hinside
    · exact ⟨iff_of_true (read_behind hdoc hfile hbehind dst) hbehind, fun hle => absurd hle (not_le.mpr hbehind)⟩
    · have hread := read_inside hdoc hfile hpos hinside dst
      refine ⟨iff_of_false ?_ (not_lt.mpr hinside), fun _ => hread⟩
      rintro ⟨-, fault, hfault, -⟩
      rw [hread.1] at hfault
      cases hfault

/-! ### Writes -/

theorem toNat_size (src : ByteString) : (UInt64.ofNat src.size).toNat = src.size := by
  have hlt := src.size_lt
  apply UInt64.toNat_ofNat_of_lt'
  rw [UInt64.size]
  exact lt_trans hlt (by decide)

theorem holds_write {content : Option (List UInt8)} (h : Holds system content) (offset : UInt64) (src : ByteString) :
    Holds system (write system parentPath content offset src).1 := by
  have hopened : ∀ file, content.elim (create system parentPath) .ok = .ok file → file.length ≤ system.maxFileSize := by
    intro file hfile
    cases content with
    | none =>
      rw [Option.elim_none, create] at hfile
      split_ifs at hfile
      cases hfile
      exact Nat.zero_le _
    | some bytes => exact h file (congrArg some (Except.ok.inj hfile))
  have hresized : ∀ file last file', (if last > UInt64.ofNat file.length then system.resizeFile file last else .ok file)
      = .ok file' → file.length ≤ system.maxFileSize → file'.length ≤ system.maxFileSize := by
    intro file last file' hfile' hfile
    split_ifs at hfile'
    · rw [FileSystem.resizeFile] at hfile'
      split_ifs at hfile' with hfits
      cases hfile'
      rwa [length_resize]
    · cases hfile'
      exact hfile
  unfold write
  split
  · exact h
  · rename_i file hfile
    have hfits := hopened file hfile
    dsimp only
    split
    · rintro file' ⟨⟩
      exact hfits
    · rename_i file' hfile'
      have hfits' := hresized file _ file' hfile' hfits
      split
      · rintro file'' ⟨⟩
        exact hfits'
      · split_ifs with hbehind
        · rintro file'' ⟨⟩
          exact hfits'
        · rintro file'' ⟨⟩
          have hinside : offset.toNat + src.bytes.length ≤ file'.length := not_lt.mp hbehind
          rwa [length_overwrite hinside]

theorem holds_call {content : Option (List UInt8)} (h : Holds system content) (c : Call) :
    Holds system (call system parentPath content c) := by
  cases c with
  | write offset src => exact holds_write h offset src
  | append src => exact holds_write h _ src

theorem holds_run {content : Option (List UInt8)} (h : Holds system content) (calls : List Call) :
    Holds system (Runs.run (call system parentPath) content calls) := by
  induction calls generalizing content with
  | nil => exact h
  | cons c calls ih => exact ih (holds_call h c)

/-- The file is there, or can be created. -/
def Creatable (system : FileSystem) (parentPath : String) (content : Option (List UInt8)) : Prop :=
  content ≠ none ∨ system.exists parentPath = true

theorem Creatable.elim_eq {content : Option (List UInt8)} (h : Creatable system parentPath content) :
    content.elim (create system parentPath) .ok = .ok (content.getD []) := by
  cases content with
  | none => exact if_pos (h.resolve_left (fun hne => hne rfl))
  | some file => rfl

theorem write_eq (hdoc : system.Documented) {content : Option (List UInt8)} (h : Creatable system parentPath content)
    (hholds : Holds system content) {offset : UInt64} {src : ByteString} (hpos : 0 < src.size)
    (hlt : offset.toNat + src.size < 2 ^ 64)
    (hfits : (GrowableArray.write 0 (content.getD []) offset.toNat src.bytes).length ≤ system.maxFileSize) :
    write system parentPath content offset src
      = (some (GrowableArray.write 0 (content.getD []) offset.toNat src.bytes), .ok ()) := by
  have hfile : (content.getD []).length ≤ system.maxFileSize := by
    cases content with
    | none => exact Nat.zero_le _
    | some file => exact hholds file rfl
  have hsum : (offset + UInt64.ofNat src.size).toNat = offset.toNat + src.size := by
    rw [UInt64.toNat_add, toNat_size, Nat.mod_eq_of_lt hlt]
  unfold write
  rw [h.elim_eq]
  generalize content.getD [] = file at hfits hfile ⊢
  rw [length_write] at hfits
  have hsize : src.bytes.length = src.size := rfl
  have hcheck : offset + UInt64.ofNat src.size > UInt64.ofNat file.length ↔
      file.length < offset.toNat + src.size := by
    rw [gt_iff_lt, UInt64.lt_iff_toNat_lt, hsum, toNat_length hfile]
  dsimp only
  by_cases hgrow : file.length < offset.toNat + src.size
  · have hresize : system.resizeFile file (offset + UInt64.ofNat src.size)
        = .ok (resize 0 file (offset.toNat + src.size)) := by
      rw [FileSystem.resizeFile, hsum, if_pos (by omega)]
    have hlength := length_resize (0 : UInt8) file (offset.toNat + src.size)
    rw [if_pos (hcheck.mpr hgrow), hresize]
    dsimp only
    rw [hdoc.maps _ offset _ (by rwa [toNat_size]) (by rw [toNat_size, hlength]) (by omega)]
    dsimp only
    rw [if_neg (by omega), ← hsize, overwrite_resize 0 (by omega)]
  · rw [if_neg (mt hcheck.mp hgrow)]
    dsimp only
    rw [hdoc.maps _ offset _ (by rwa [toNat_size]) (by rw [toNat_size]; omega) hfile]
    dsimp only
    rw [if_neg hgrow, overwrite_eq_write 0 (by omega)]

theorem call_eq (hdoc : system.Documented) {content : Option (List UInt8)} (h : Creatable system parentPath content)
    (hholds : Holds system content) {c : Call} (hallowed : c.Allowed)
    (hfits : ∀ array, reference content c = some array → array.length ≤ system.maxFileSize) :
    call system parentPath content c = reference content c := by
  cases c with
  | write offset src =>
    exact congrArg Prod.fst (write_eq hdoc h hholds hallowed.1 hallowed.2 (hfits _ rfl))
  | append src =>
    have hoffset : (content.elim 0 fun file => UInt64.ofNat file.length).toNat = (content.getD []).length := by
      cases content with
      | none => rfl
      | some file => exact toNat_length (hholds file rfl)
    have hmax := system.maxFileSize_lt
    have hlength := hfits _ rfl
    rw [length_write] at hlength
    have hsize : src.bytes.length = src.size := rfl
    have hwrite : write system parentPath content (content.elim 0 fun file => UInt64.ofNat file.length) src
        = (some (GrowableArray.write 0 (content.getD []) (content.getD []).length src.bytes), .ok ()) := by
      rw [← hoffset]
      exact write_eq hdoc h hholds hallowed (by omega) (by rw [hoffset]; exact hfits _ rfl)
    exact congrArg Prod.fst hwrite

/-! ### Runs -/

theorem length_le_run (array : List UInt8) (calls : List Call) :
    ∃ array', Runs.run reference (some array) calls = some array' ∧ array.length ≤ array'.length := by
  induction calls generalizing array with
  | nil => exact ⟨array, rfl, le_refl _⟩
  | cons c calls ih =>
    obtain ⟨next, hnext, hle⟩ : ∃ next, reference (some array) c = some next ∧ array.length ≤ next.length := by
      cases c with
      | write offset src => exact ⟨_, rfl, by rw [length_write]; exact le_max_left _ _⟩
      | append src => exact ⟨_, rfl, by rw [length_write]; exact le_max_left _ _⟩
    obtain ⟨array', hrun, hle'⟩ := ih next
    refine ⟨array', ?_, le_trans hle hle'⟩
    rw [Runs.run_cons, hnext, hrun]

theorem reference_ne_none (array : Option (List UInt8)) (c : Call) : ∃ next, reference array c = some next := by
  cases c with
  | write offset src => exact ⟨_, rfl⟩
  | append src => exact ⟨_, rfl⟩

/-- Allowed calls whose array fits the file system do to the file what they do to the array. -/
theorem run_eq (hdoc : system.Documented) {content : Option (List UInt8)} (hholds : Holds system content)
    {calls : List Call} (hcreate : Creatable system parentPath content ∨ calls = []) (hallowed : ∀ c ∈ calls, c.Allowed)
    (hfits : Holds system (Runs.run reference content calls)) :
    Runs.run (call system parentPath) content calls = Runs.run reference content calls := by
  induction calls generalizing content with
  | nil => rfl
  | cons c calls ih =>
    obtain ⟨next, hnext⟩ := reference_ne_none content c
    have hstep : call system parentPath content c = some next := by
      rw [← hnext]
      refine call_eq hdoc (hcreate.resolve_right (List.cons_ne_nil c calls)) hholds (hallowed c (by simp)) ?_
      intro array harray
      obtain ⟨array', hrun, hle⟩ := length_le_run array calls
      rw [Runs.run_cons, harray] at hfits
      exact le_trans hle (hfits array' hrun)
    have hholds' : Holds system (some next) := by
      rw [← hstep]
      exact holds_call hholds c
    rw [Runs.run_cons, Runs.run_cons, hstep, hnext]
    rw [Runs.run_cons, hnext] at hfits
    exact ih hholds' (Or.inl (Or.inl (by simp))) (fun c' hmem => hallowed c' (List.mem_cons_of_mem _ hmem)) hfits

theorem run_none (h : ¬ system.exists parentPath = true) (calls : List Call) :
    Runs.run (call system parentPath) none calls = none := by
  induction calls with
  | nil => rfl
  | cons c calls ih =>
    have hcreate : create system parentPath = .error (.runtimeError "invalid directory") := if_neg h
    have hstep : call system parentPath none c = none := by
      cases c with
      | write offset src => simp only [call, write, Option.elim_none, hcreate]
      | append src => simp only [call, append, write, Option.elim_none, hcreate]
    rw [Runs.run_cons, hstep, ih]

/-- The file lies in a directory there is: the one its path names, or the current one where it names none. -/
def InExistingDirectory (system : FileSystem) (parentPath : String) : Prop :=
  parentPath = "" ∨ system.directories parentPath = true

/-- Files are growable arrays if and only if they do not have to be created under a bare name, and the array is no
longer than files can be. -/
theorem behaves_iff (hdoc : system.Documented) (hdir : InExistingDirectory system parentPath)
    {initial : Option (List UInt8)} (hinitial : Holds system initial) {calls : List Call}
    (hallowed : ∀ c ∈ calls, c.Allowed) :
    Behaves system parentPath initial calls ↔
      (parentPath ≠ "" ∨ initial ≠ none ∨ calls = []) ∧ Holds system (Runs.run reference initial calls) := by
  constructor
  · rintro ⟨hrun, -⟩
    refine ⟨?_, hrun ▸ holds_run hinitial calls⟩
    by_contra hcond
    push Not at hcond
    obtain ⟨hbare, rfl, hcalls⟩ := hcond
    have hnone : ¬ system.exists parentPath = true := by simp [FileSystem.exists, hbare]
    obtain ⟨c, calls, rfl⟩ := List.exists_cons_of_ne_nil hcalls
    obtain ⟨next, hnext⟩ := reference_ne_none none c
    obtain ⟨array, harray, -⟩ := length_le_run next calls
    rw [run_none hnone, Runs.run_cons, hnext, harray] at hrun
    cases hrun
  · rintro ⟨hcond, hfits⟩
    have hcreate : Creatable system parentPath initial ∨ calls = [] := by
      rcases hcond with hnamed | hfile | hcalls
      · refine Or.inl (Or.inr ?_)
        simp [FileSystem.exists, hnamed, hdir.resolve_left hnamed]
      · exact Or.inl (Or.inl hfile)
      · exact Or.inr hcalls
    have hrun := run_eq hdoc hinitial hcreate hallowed hfits
    refine ⟨hrun, ?_⟩
    rw [hrun]
    exact readsLike_self hdoc hfits

/-- A system with one directory but the current one, which maps nothing behind the end of a file. -/
def oneDirectory : FileSystem where
  directories path := path = "dir"
  maxFileSize := 2 ^ 63 - 1
  maxFileSize_lt := Nat.sub_lt (Nat.two_pow_pos 63) Nat.one_pos
  mapRegion fileSize offset size :=
    if offset.toNat + size.toNat ≤ fileSize ∧ offset.toNat < 2 ^ 63 then .ok () else .error "Invalid argument"

theorem documented_oneDirectory : oneDirectory.Documented where
  maps fileSize offset size hsize hinside hfits := by
    have hmax := oneDirectory.maxFileSize_lt
    exact if_pos ⟨hinside, by omega⟩
  refuses fileSize offset size hoffset := ⟨"Invalid argument", if_neg (by omega)⟩

theorem behaves_gap :
    Behaves oneDirectory "dir" none
      [.append (.single 97), .write 3 (.single 98)] := by
  refine (behaves_iff documented_oneDirectory (Or.inr rfl) ?_ ?_).mpr ⟨Or.inl (by decide), ?_⟩
  · intro file hfile
    cases hfile
  · intro c hmem
    simp only [List.mem_cons, List.not_mem_nil, or_false] at hmem
    rcases hmem with rfl | rfl
    · exact (by decide : 0 < 1)
    · exact (by decide : 0 < 1 ∧ 3 + 1 < 2 ^ 64)
  · intro file hfile
    have hlength : file.length = 4 := by
      rw [← Option.some.inj hfile]
      rfl
    rw [hlength]
    decide

/-- The first letter for a file in the current directory: it is not created there. -/
theorem not_behaves_bare_name :
    InExistingDirectory oneDirectory "" ∧
    (append oneDirectory "" none (.single 97)).2 = .error (.runtimeError "invalid directory") ∧
    ¬ Behaves oneDirectory "" none [.append (.single 97)] := by
  refine ⟨Or.inl rfl, rfl, ?_⟩
  rintro ⟨hrun, -⟩
  cases hrun

end File

end OmxDb
