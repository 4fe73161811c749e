import OmxDb.Index

/-!
# Index files

The end of an index file is looked for behind an entry, never behind the header. A file with an entry loads to the
table that was dumped, for every number of entries and every iteration order of the map (`load_dump`). A file
without one, which is what a snapshot of no rows writes, still gives one iteration: its reads fail, the variables
keep their initial values, and key 0 is registered with an empty range (`load_dump_empty`).
-/

namespace OmxDb

namespace SSTableIndex

/-- The table of a file id after the inserts. -/
def built (fileId : UInt32) (inserts : List (Key × FileSearchHint)) : SSTableIndex :=
  inserts.foldl (fun t entry => t.insert entry.1 entry.2) { fileId := fileId }

theorem get_foldl_insert_ne_none (t : SSTableIndex) (inserts : List (Key × FileSearchHint)) {key : Key}
    (h : t.get key ≠ none ∨ ∃ entry ∈ inserts, entry.1 = key) :
    (inserts.foldl (fun t entry => t.insert entry.1 entry.2) t).get key ≠ none := by
  induction inserts generalizing t with
  | nil => simpa using h
  | cons entry inserts ih =>
    apply ih
    rw [get_insert]
    by_cases hkey : entry.1 = key
    · simp [hkey]
    · simpa [hkey] using h

/-- The first iteration on a file without entries reads nothing and inserts all the same. -/
theorem load_dump_empty (P : Platform) {t : SSTableIndex} (h : ∀ key, t.get key = none) :
    load (IStream.ofBytes (t.dump P)) = .ok (insertNew { fileId := t.fileId } ⟨0⟩ {}) := by
  rw [dump, entries_eq_nil.mpr h, List.flatMap_nil, load_header]
  rfl

/-! ### Round trip -/

/-- Loading what `dump` wrote succeeds, with the same file id and the same result of `get` for every key. -/
def RoundTrips (P : Platform) (t : SSTableIndex) : Prop :=
  ∃ loaded, load (IStream.ofBytes (t.dump P)) = .ok loaded ∧ loaded.getFileId = t.getFileId ∧
    ∀ key, loaded.get key = t.get key

theorem not_roundTrips_of_empty {P : Platform} {t : SSTableIndex} (h : ∀ key, t.get key = none) :
    ¬ RoundTrips P t := by
  rintro ⟨loaded, hload, -, hget⟩
  rw [load_dump_empty P h] at hload
  have hphantom : loaded.get ⟨0⟩ = some {} := by
    rw [← Except.ok.inj hload]
    rfl
  rw [hget, h] at hphantom
  exact absurd hphantom (by simp)

/-- Index files round trip as soon as something was inserted, and only then. -/
theorem roundTrips_iff (P : Platform) (fileId : UInt32) (inserts : List (Key × FileSearchHint)) :
    RoundTrips P (built fileId inserts) ↔ inserts ≠ [] := by
  constructor
  · intro htrip hnil
    rw [hnil] at htrip
    exact not_roundTrips_of_empty (fun _ => rfl) htrip
  · intro hne
    obtain ⟨entry, inserts, rfl⟩ := List.exists_cons_of_ne_nil hne
    exact load_dump P (get_foldl_insert_ne_none { fileId := fileId } (entry :: inserts)
      (Or.inr ⟨entry, by simp, rfl⟩))

theorem not_roundTrips_no_insert : ¬ RoundTrips plainPlatform (built 7 []) :=
  not_roundTrips_of_empty fun _ => rfl

end SSTableIndex

end OmxDb
