import OmxDb.Index

/-!
# Index files cut short

What `SSTableIndex::load` makes of the first bytes of an index file. A cut inside the header gives a table
without entries whose id has lost its high bytes (`load_take_header`). Behind the header the loader reads the
whole entries that are left and then, unless the cut is right behind one of them, inserts one entry more,
under the key its variable holds by then: the bytes it still got of the next key over the key before
(`tornKey`). Every other key has the hint of the whole file or none (`load_take`).
-/

namespace OmxDb

open LittleEndian

namespace SSTableIndex

/-- The bytes that were reached of the one key over those of the other. -/
def overread (prev next : Key) (reached : Nat) : Key :=
  ⟨UInt64.ofNat (decodeLE ((encodeLE 8 next.id.toNat).take reached
    ++ (encodeLE 8 prev.id.toNat).drop reached))⟩

/-- The entries that end within the first `count` bytes of an index file. -/
def wholeEntries (entries : List (Key × FileSearchHint)) (count : Nat) : List (Key × FileSearchHint) :=
  entries.take ((count - 5) / 18)

/-- The key of the entry the loader adds when the file ends after `count` bytes. -/
def tornKey (entries : List (Key × FileSearchHint)) (count : Nat) : Key :=
  overread (((wholeEntries entries count).getLast?.map Prod.fst).getD ⟨0⟩)
    (((entries.drop ((count - 5) / 18)).head?.map Prod.fst).getD ⟨0⟩) ((count - 5) % 18 - 1)

theorem overread_self (key : Key) (reached : Nat) : overread key key reached = key := by
  unfold overread
  rw [List.take_append_drop, decodeLE_encodeLE_uint64, UInt64.ofNat_toNat]

/-! ### The torn entry -/

theorem loadEntry_torn {vars : LoadVars} (hvars : vars.Sized) (entry : Key × FileSearchHint) {count : Nat}
    (hcount : count < 18) :
    ∃ vars', loadEntry vars (IStream.ofBytes ((dumpEntry entry).take count)) = .ok (vars', IStream.exhausted) ∧
      vars'.key = (encodeLE 8 entry.1.id.toNat).take (count - 1) ++ vars.key.drop (count - 1) := by
  have hkey := hvars.key
  have hfull : ∀ n, 8 ≤ n → (encodeLE 8 entry.1.id.toNat).take n ++ vars.key.drop n
      = encodeLE 8 entry.1.id.toNat := by
    intro n hn
    rw [List.take_of_length_le (by simpa using hn), List.drop_of_length_le (by omega), List.append_nil]
  simp only [loadEntry]
  rw [dumpEntry]
  rcases take_append_cases [8] count with ⟨h, hp⟩ | ⟨count₁, rfl, hp⟩ <;> rw [hp]
  · -- nothing is left of the entry
    have hzero : count = 0 := by
      rw [List.length_singleton] at h
      omega
    rw [readInto_take (n := 1) rfl hvars.sizeOfKey h]
    simp only [bind, Except.bind, readInto_exhausted]
    refine ⟨_, rfl, ?_⟩
    simp [hzero]
  rw [readInto_ofBytes (n := 1) rfl hvars.sizeOfKey]
  simp only [bind, Except.bind, decodeLE_singleton, show (8 : UInt8).toNat = 8 from rfl]
  rw [List.length_singleton, Nat.add_sub_cancel_left]
  rw [List.length_singleton] at hcount
  rcases take_append_cases (encodeLE 8 entry.1.id.toNat) count₁ with ⟨h, hp⟩ | ⟨count₂, rfl, hp⟩ <;> rw [hp]
  · -- the key is cut
    rw [readInto_take (n := 8) (by simp) hkey (by simpa using h)]
    simp only [readInto_exhausted]
    exact ⟨_, rfl, rfl⟩
  rw [readInto_ofBytes (n := 8) (by simp) hkey]
  simp only []
  rw [length_encodeLE] at hcount ⊢
  rw [hfull _ (by omega)]
  rcases take_append_cases [8] count₂ with ⟨h, hp⟩ | ⟨count₃, rfl, hp⟩ <;> rw [hp]
  · -- the hint width is missing
    rw [readInto_take (n := 1) rfl hvars.sizeOfHint h]
    simp only [readInto_exhausted]
    exact ⟨_, rfl, rfl⟩
  · -- the hint is cut
    rw [readInto_ofBytes (n := 1) rfl hvars.sizeOfHint]
    simp only [decodeLE_singleton, show (8 : UInt8).toNat = 8 from rfl]
    rw [List.length_singleton] at hcount
    rw [readInto_take (n := 8) (by simp) hvars.hint (by omega)]
    exact ⟨_, rfl, rfl⟩

theorem getLast_key (entry : Key × FileSearchHint) (whole : List (Key × FileSearchHint)) (prev : Key) :
    (((entry :: whole).getLast?.map Prod.fst).getD prev) = (whole.getLast?.map Prod.fst).getD entry.1 := by
  rw [List.getLast?_cons]
  cases whole.getLast? <;> rfl

/-- Behind whole entries, an entry cut anywhere but at its start, or nothing at all, adds one entry. -/
theorem loadLoop_torn (next : Key × FileSearchHint) {count : Nat} (hcount : count < 18)
    (whole : List (Key × FileSearchHint)) (hpos : whole = [] ∨ 0 < count) {fuel : Nat}
    (hfuel : whole.length + 2 ≤ fuel) (t : SSTableIndex) {vars : LoadVars} (hvars : vars.Sized) (prev : Key)
    (hprev : vars.key = encodeLE 8 prev.id.toNat) :
    ∃ hint, loadLoop fuel t vars
        (IStream.ofBytes (whole.flatMap dumpEntry ++ (dumpEntry next).take count))
      = .ok ((t.addEntries whole).insertNew
          (overread ((whole.getLast?.map Prod.fst).getD prev) next.1 (count - 1)) hint) := by
  induction whole generalizing fuel t vars prev with
  | nil =>
    obtain ⟨vars', hread, hkey⟩ := loadEntry_torn hvars next hcount
    obtain ⟨fuel, rfl⟩ := Nat.exists_eq_add_of_le hfuel
    rw [show ([] : List (Key × FileSearchHint)).length + 2 + fuel = fuel + 1 + 1 by simp; omega]
    refine ⟨hintOfBytes vars'.hint, ?_⟩
    simp only [List.flatMap_nil, List.nil_append, loadLoop, IStream.eof_ofBytes, hread,
      IStream.peek_exhausted, IStream.eof_exhausted, if_true, Bool.false_eq_true, if_false]
    rw [hkey, hprev]
    rfl
  | cons entry whole ih =>
    have hcut : 0 < count := hpos.resolve_left (List.cons_ne_nil _ _)
    obtain ⟨fuel, rfl⟩ := Nat.exists_eq_add_of_le hfuel
    have hne : whole.flatMap dumpEntry ++ (dumpEntry next).take count ≠ [] := by
      intro h
      have hlen := congrArg List.length (List.append_eq_nil_iff.mp h).2
      rw [List.length_take, length_dumpEntry, List.length_nil] at hlen
      omega
    obtain ⟨hint, hloop⟩ := ih (Or.inr hcut) (show whole.length + 2 ≤ whole.length + 2 + fuel by omega)
      (t.insertNew entry.1 entry.2) (entryVars_sized entry) entry.1 rfl
    refine ⟨hint, ?_⟩
    rw [show (entry :: whole).length + 2 + fuel = (whole.length + 2 + fuel) + 1 by simp; omega]
    rw [List.flatMap_cons, List.append_assoc, loadLoop, loadEntry_dumpEntry hvars]
    simp only [IStream.eof_ofBytes, Bool.false_eq_true, if_false]
    rw [IStream.peek_ofBytes_of_ne_nil hne, getLast_key]
    simp only [entryVars, hintOfBytes_dumpHint, decodeLE_encodeLE_uint64, UInt64.ofNat_toNat]
    exact hloop

/-! ### Cut files -/

theorem flatMap_dumpEntry_take (entries : List (Key × FileSearchHint)) (whole rest : Nat) :
    (entries.flatMap dumpEntry).take (18 * whole + rest)
      = (entries.take whole).flatMap dumpEntry ++ ((entries.drop whole).flatMap dumpEntry).take rest := by
  induction whole generalizing entries with
  | zero => simp
  | succ whole ih =>
    cases entries with
    | nil => simp
    | cons entry entries =>
      rw [List.take_succ_cons, List.drop_succ_cons, List.flatMap_cons, List.flatMap_cons, List.append_assoc,
        ← ih entries, List.take_append, length_dumpEntry,
        show 18 * (whole + 1) + rest - 18 = 18 * whole + rest by omega,
        List.take_of_length_le (by rw [length_dumpEntry]; omega)]

theorem find?_of_find?_take {entries : List (Key × FileSearchHint)} {n : Nat} {key : Key}
    {entry : Key × FileSearchHint} (h : (entries.take n).find? (fun entry => entry.1 = key) = some entry) :
    entries.find? (fun entry => entry.1 = key) = some entry := by
  rw [← List.take_append_drop n entries, List.find?_append, h, Option.some_or]

/-- A cut inside the header: no entries, and an id without its high bytes. -/
theorem load_take_header (P : Platform) (t : SSTableIndex) {count : Nat} (h : count < 5) :
    load (IStream.ofBytes ((t.dump P).take count))
      = .ok { fileId := UInt32.ofNat (t.fileId.toNat % 256 ^ (count - 1)) } := by
  have hheader : (t.dump P).take count = (dumpHeader t.fileId).take count := by
    unfold dump
    rw [List.take_append_of_le_length (by rw [length_dumpHeader]; omega)]
  rw [hheader, dumpHeader, load]
  rcases take_append_cases [4] count with ⟨h', hp⟩ | ⟨count, rfl, hp⟩ <;> rw [hp]
  · have hzero : count = 0 := by
      rw [List.length_singleton] at h'
      omega
    subst hzero
    rw [readInto_take (n := 1) rfl rfl h']
    simp only [bind, Except.bind, readInto_exhausted]
    rw [Nat.zero_sub, pow_zero, Nat.mod_one]
    rfl
  · rw [List.length_singleton] at h ⊢
    have hid : decodeLE ((encodeLE 4 t.fileId.toNat).take count ++ (encodeLE 4 0).drop count)
        = t.fileId.toNat % 256 ^ count := by
      rw [encodeLE_zero, List.drop_replicate, decodeLE_append_zeros, take_encodeLE _ (by omega),
        decodeLE_encodeLE]
    rw [readInto_ofBytes (n := 1) rfl rfl]
    simp only [bind, Except.bind, decodeLE_singleton, show (4 : UInt8).toNat = 4 from rfl]
    rw [readInto_take (n := 4) (by simp) (by simp) (by omega), Nat.add_sub_cancel_left]
    simp only [hid]
    rfl

theorem dump_take_eq (P : Platform) (t : SSTableIndex) {count : Nat} (h : 5 ≤ count) :
    (t.dump P).take count = dumpHeader t.fileId
      ++ ((wholeEntries (t.entries P) count).flatMap dumpEntry
        ++ (((t.entries P).drop ((count - 5) / 18)).flatMap dumpEntry).take ((count - 5) % 18)) := by
  unfold dump wholeEntries
  rw [List.take_append, List.take_of_length_le (by rw [length_dumpHeader]; exact h), length_dumpHeader,
    ← flatMap_dumpEntry_take, Nat.div_add_mod]

theorem find?_wholeEntries (P : Platform) (t : SSTableIndex) (count : Nat) (key : Key) :
    ((wholeEntries (t.entries P) count).find? fun entry => entry.1 = key).map Prod.snd = none ∨
      key ∈ (wholeEntries (t.entries P) count).map Prod.fst ∧
        ((wholeEntries (t.entries P) count).find? fun entry => entry.1 = key).map Prod.snd = t.get key := by
  rw [← find?_entries P t key]
  cases hfind : (wholeEntries (t.entries P) count).find? fun entry => entry.1 = key with
  | none => exact Or.inl rfl
  | some entry =>
    have hkey := List.find?_some hfind
    refine Or.inr ⟨List.mem_map.mpr ⟨entry, List.mem_of_find?_eq_some hfind, by simpa using hkey⟩, ?_⟩
    rw [find?_of_find?_take hfind]

theorem get_insertNew_addEntries (fileId : UInt32) (entries : List (Key × FileSearchHint)) (torn : Key)
    (hint : FileSearchHint) {key : Key} (hkey : key = torn → key ∈ entries.map Prod.fst) :
    ((addEntries { fileId := fileId } entries).insertNew torn hint).get key
      = (entries.find? fun entry => entry.1 = key).map Prod.snd := by
  rw [get_insertNew, get_addEntries]
  show (Option.or none _).or _ = _
  rw [Option.none_or]
  split_ifs with heq
  · obtain ⟨entry, hentry, hfst⟩ := List.mem_map.mp (hkey heq.symm)
    obtain ⟨found, hfound⟩ := Option.isSome_iff_exists.mp
      (List.find?_isSome (p := fun entry : Key × FileSearchHint => entry.1 = key).mpr
        ⟨entry, hentry, by simpa using hfst⟩)
    rw [hfound]
    rfl
  · rw [Option.or_none]

theorem exists_tornEntry (P : Platform) (t : SSTableIndex) (count : Nat)
    (hbehind : ¬ (wholeEntries (t.entries P) count ≠ [] ∧
      (((t.entries P).drop ((count - 5) / 18)).flatMap dumpEntry).take ((count - 5) % 18) = [])) :
    ∃ (next : Key × FileSearchHint) (n : Nat), n < 18 ∧
      (((t.entries P).drop ((count - 5) / 18)).flatMap dumpEntry).take ((count - 5) % 18)
        = (dumpEntry next).take n ∧
      (wholeEntries (t.entries P) count = [] ∨ 0 < n) ∧
      tornKey (t.entries P) count
        = overread (((wholeEntries (t.entries P) count).getLast?.map Prod.fst).getD ⟨0⟩) next.1 (n - 1) := by
  have hlt : (count - 5) % 18 < 18 := Nat.mod_lt _ (by decide)
  unfold tornKey
  cases hdrop : (t.entries P).drop ((count - 5) / 18) with
  | nil =>
    -- there is no entry in the file
    rw [hdrop, List.flatMap_nil, List.take_nil] at hbehind
    have hnil : wholeEntries (t.entries P) count = [] := by
      by_contra hne
      exact hbehind ⟨hne, rfl⟩
    refine ⟨(⟨0⟩, {}), 0, by decide, ?_, Or.inl hnil, ?_⟩
    · rw [List.flatMap_nil, List.take_nil, List.take_zero]
    rw [hnil]
    exact (overread_self ⟨0⟩ _).trans (overread_self ⟨0⟩ _).symm
  | cons next rest =>
    have htake : ((next :: rest).flatMap dumpEntry).take ((count - 5) % 18)
        = (dumpEntry next).take ((count - 5) % 18) := by
      rw [List.flatMap_cons, List.take_append_of_le_length (by rw [length_dumpEntry]; omega)]
    refine ⟨next, (count - 5) % 18, hlt, htake, ?_, rfl⟩
    rw [hdrop] at hbehind
    by_contra hnot
    obtain ⟨hne, hzero⟩ := not_or.mp hnot
    apply hbehind
    refine ⟨hne, ?_⟩
    rw [Nat.eq_zero_of_not_pos hzero, List.take_zero]

/-- A cut behind the header: every key but the torn one, unless its own entry is whole, has the hint of the
table if its entry is whole, or none. -/
theorem load_take (P : Platform) (t : SSTableIndex) {count : Nat} (h : 5 ≤ count) :
    ∃ loaded, load (IStream.ofBytes ((t.dump P).take count)) = .ok loaded ∧ loaded.fileId = t.fileId ∧
      ∀ key, (key = tornKey (t.entries P) count →
          key ∈ (wholeEntries (t.entries P) count).map Prod.fst) →
        loaded.get key = none ∨
          key ∈ (wholeEntries (t.entries P) count).map Prod.fst ∧ loaded.get key = t.get key := by
  rw [dump_take_eq P t h]
  by_cases hbehind : wholeEntries (t.entries P) count ≠ [] ∧
      (((t.entries P).drop ((count - 5) / 18)).flatMap dumpEntry).take ((count - 5) % 18) = []
  · -- the cut is right behind an entry
    rw [hbehind.2, List.append_nil]
    refine ⟨_, load_entries t.fileId hbehind.1, fileId_addEntries _ _, ?_⟩
    intro key _
    rw [get_addEntries]
    exact find?_wholeEntries P t count key
  · obtain ⟨next, n, hn, hnext, hpos, hkey⟩ := exists_tornEntry P t count hbehind
    obtain ⟨hint, hloop⟩ := loadLoop_torn next hn (wholeEntries (t.entries P) count) hpos
      (show (wholeEntries (t.entries P) count).length + 2
          ≤ ((wholeEntries (t.entries P) count).flatMap dumpEntry ++ (dumpEntry next).take n).length + 2 by
        rw [List.length_append, length_flatMap_dumpEntry]
        omega)
      { fileId := t.fileId } initialVars_sized ⟨0⟩ rfl
    rw [hnext, load_header, hloop, ← hkey]
    refine ⟨_, rfl, ?_, ?_⟩
    · rw [fileId_insertNew, fileId_addEntries]
    · intro key hin
      rw [get_insertNew_addEntries t.fileId _ _ hint hin]
      exact find?_wholeEntries P t count key

end SSTableIndex

end OmxDb
