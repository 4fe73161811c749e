import OmxDb.Segments

/-!
# Loading the index directory

`Index::load` registers the files of the index directory in the order of their names, so the table with the
greatest name ends up in front: the loaded index is `byFileName` of the tables that were dumped
(`load_indexFiles`). The order of names is the order of decimal numerals as strings, under which `index_10`
comes before `index_2`. `reloadAgrees_iff` says exactly when the loaded index answers like the one whose
tables were dumped.
-/

namespace OmxDb

/-! ### Index directories -/

/-- The directory holds the dump of each table under the name of its id, and no other file. -/
def IndexFiles (P : Platform) (dir : Dir) (tables : List SSTableIndex) : Prop :=
  ∀ name bytes, dir.lookup name = some bytes ↔
    ∃ t ∈ tables, name = indexFile t.fileId.toNat ∧ bytes = t.dump P

/-- Later file names first: the order in which a loaded index lists what it read. -/
def byFileName {α : Type*} (fileId : α → UInt32) (l : List α) : List α :=
  (l.insertionSort fun a b => indexFile (fileId a).toNat ≤ indexFile (fileId b).toNat).reverse

/-- Two tables with one id and the same hints. -/
def SameTable (t t' : SSTableIndex) : Prop := t.fileId = t'.fileId ∧ ∀ key, t.get key = t'.get key

theorem getLoop_congr {tables tables' : List SSTableIndex} (h : List.Forall₂ SameTable tables tables')
    (key : Key) : Index.getLoop key tables = Index.getLoop key tables' := by
  induction h with
  | nil => rfl
  | cons ht _ ih => rw [Index.getLoop, Index.getLoop, ht.2 key, ih, SSTableIndex.getFileId, ht.1]; rfl

section byFileName

variable {α : Type*} {fileId : α → UInt32}

theorem byFileName_perm (fileId : α → UInt32) (l : List α) : (byFileName fileId l).Perm l :=
  (List.reverse_perm _).trans (List.perm_insertionSort _ l)

@[simp] theorem mem_byFileName {l : List α} {x : α} : x ∈ byFileName fileId l ↔ x ∈ l :=
  (byFileName_perm fileId l).mem_iff

theorem indexFile_toNat_injective {a b : UInt32} (h : indexFile a.toNat = indexFile b.toNat) : a = b :=
  UInt32.toNat_inj.mp (indexFile_injective h)

theorem byFileName_pairwise {l : List α} (hdistinct : l.Pairwise fun a b => fileId a ≠ fileId b) :
    (byFileName fileId l).Pairwise fun a b => indexFile (fileId b).toNat < indexFile (fileId a).toNat := by
  have hne : (byFileName fileId l).Pairwise fun a b => fileId a ≠ fileId b :=
    hdistinct.perm (byFileName_perm fileId l).symm fun h => h.symm
  have hle : (byFileName fileId l).Pairwise fun a b =>
      indexFile (fileId b).toNat ≤ indexFile (fileId a).toNat := by
    unfold byFileName
    rw [List.pairwise_reverse]
    let r (a b : α) : Prop := indexFile (fileId a).toNat ≤ indexFile (fileId b).toNat
    have : Std.Total r := ⟨fun a b => le_total (indexFile (fileId a).toNat) _⟩
    have : IsTrans α r := ⟨fun a b c => le_trans⟩
    exact List.pairwise_insertionSort r l
  refine (hle.and hne).imp ?_
  rintro a b ⟨h, hab⟩
  exact lt_of_le_of_ne h fun heq => hab (indexFile_toNat_injective heq).symm

theorem byFileName_map {β : Type*} (fileId : α → UInt32) (f : α → β) (fileId' : β → UInt32) (l : List α)
    (h : ∀ a, fileId' (f a) = fileId a) : byFileName fileId' (l.map f) = (byFileName fileId l).map f := by
  have hsort : (l.insertionSort fun a b => indexFile (fileId a).toNat ≤ indexFile (fileId b).toNat).map f
      = (l.map f).insertionSort fun a b => indexFile (fileId' a).toNat ≤ indexFile (fileId' b).toNat := by
    apply List.map_insertionSort
    intro a _ b _
    rw [h, h]
  unfold byFileName
  rw [List.map_reverse, hsort]

theorem byFileName_forall₂ {β : Type*} {fileId' : β → UInt32} {R : α → β → Prop} {l : List α} {l' : List β}
    (h : List.Forall₂ (fun a b => fileId a = fileId' b ∧ R a b) l l') :
    List.Forall₂ R (byFileName fileId l) (byFileName fileId' l') := by
  obtain ⟨pairs, rfl, rfl⟩ : ∃ pairs : List {p : α × β // fileId p.1 = fileId' p.2 ∧ R p.1 p.2},
      pairs.map (fun p => p.1.1) = l ∧ pairs.map (fun p => p.1.2) = l' := by
    induction h with
    | nil => exact ⟨[], rfl, rfl⟩
    | @cons a b _ _ hab _ ih =>
      obtain ⟨pairs, rfl, rfl⟩ := ih
      exact ⟨⟨(a, b), hab⟩ :: pairs, rfl, rfl⟩
  rw [byFileName_map (fun p => fileId p.1.1) (fun p => p.1.1) fileId pairs (fun _ => rfl),
    byFileName_map (fun p => fileId p.1.1) (fun p => p.1.2) fileId' pairs (fun p => p.2.1.symm),
    List.forall₂_map_left_iff, List.forall₂_map_right_iff, List.forall₂_same]
  intro p _
  exact p.2.2

end byFileName

theorem IndexFiles.congr {P : Platform} {dir : Dir} {tables tables' : List SSTableIndex}
    (h : IndexFiles P dir tables) (hmem : ∀ t, t ∈ tables ↔ t ∈ tables') : IndexFiles P dir tables' := by
  intro name bytes
  simp only [h name bytes, hmem]

theorem IndexFiles.insert {P : Platform} {dir : Dir} {tables : List SSTableIndex}
    (h : IndexFiles P dir tables) (t : SSTableIndex) (hnew : ∀ t' ∈ tables, t'.fileId ≠ t.fileId) :
    IndexFiles P (dir.insert (indexFile t.fileId.toNat) (t.dump P)) (t :: tables) := by
  intro name bytes
  by_cases hname : name = indexFile t.fileId.toNat
  · subst hname
    rw [AList.lookup_insert, Option.some_inj]
    constructor
    · rintro rfl
      exact ⟨t, by simp, rfl, rfl⟩
    · rintro ⟨t', ht', hid, rfl⟩
      rcases List.mem_cons.mp ht' with rfl | ht'
      · rfl
      · exact absurd (indexFile_toNat_injective hid).symm (hnew t' ht')
  · rw [AList.lookup_insert_ne hname, h name bytes]
    constructor
    · rintro ⟨t', ht', hfile⟩
      exact ⟨t', List.mem_cons_of_mem _ ht', hfile⟩
    · rintro ⟨t', ht', hid, hbytes⟩
      rcases List.mem_cons.mp ht' with rfl | ht'
      · exact absurd hid hname
      · exact ⟨t', ht', hid, hbytes⟩

theorem mem_keys_iff {P : Platform} {dir : Dir} {tables : List SSTableIndex}
    (h : IndexFiles P dir tables) (name : FileName) :
    name ∈ dir.keys ↔ ∃ t ∈ tables, name = indexFile t.fileId.toNat := by
  have hkeys : name ∈ dir.keys ↔ (dir.lookup name).isSome := AList.lookup_isSome.symm
  rw [hkeys, Option.isSome_iff_exists]
  constructor
  · rintro ⟨bytes, hbytes⟩
    obtain ⟨t, ht, hname, -⟩ := (h name bytes).mp hbytes
    exact ⟨t, ht, hname⟩
  · rintro ⟨t, ht, hname⟩
    exact ⟨_, (h name _).mpr ⟨t, ht, hname, rfl⟩⟩

theorem sortedIndexFiles_eq {α : Type*} {fileId : α → UInt32} {dir : Dir} {l : List α}
    (hkeys : ∀ name, name ∈ dir.keys ↔ ∃ x ∈ l, name = indexFile (fileId x).toNat)
    (hdistinct : l.Pairwise fun a b => fileId a ≠ fileId b) :
    Index.sortedIndexFiles dir
      = (byFileName fileId l).reverse.map fun x => indexFile (fileId x).toNat := by
  have hsorted := byFileName_pairwise hdistinct
  have hright : ((byFileName fileId l).reverse.map fun x =>
      indexFile (fileId x).toNat).Pairwise (· < ·) := by
    rw [List.pairwise_map, List.pairwise_reverse]
    exact hsorted
  have hleft : (Index.sortedIndexFiles dir).Pairwise (· ≤ ·) := List.pairwise_insertionSort _ _
  have hperm : (Index.sortedIndexFiles dir).Perm
      ((byFileName fileId l).reverse.map fun x => indexFile (fileId x).toNat) := by
    apply (List.perm_insertionSort _ dir.keys).trans
    apply (List.perm_ext_iff_of_nodup dir.keys_nodup (hright.imp ne_of_lt)).mpr
    intro name
    rw [hkeys]
    simp [eq_comm]
  exact hperm.eq_of_pairwise (fun a b _ _ => le_antisymm) hleft (hright.imp le_of_lt)

/-- Files with distinct names that load to tables with distinct ids are all registered, the greatest name in
front; the id of a table need not be that of its name. -/
theorem load_files (dir : Dir) (files : List (UInt32 × SSTableIndex))
    (hkeys : ∀ name, name ∈ dir.keys ↔ ∃ file ∈ files, name = indexFile file.1.toNat)
    (hload : ∀ file ∈ files,
      SSTableIndex.load (IStream.ofBytes ((dir.lookup (indexFile file.1.toNat)).getD [])) = .ok file.2)
    (hnames : files.Pairwise fun a b => a.1 ≠ b.1)
    (hids : files.Pairwise fun a b => a.2.fileId ≠ b.2.fileId) :
    ∃ loaded, Index.load (fun _ => false) dir {} = .ok loaded ∧
      loaded.tableIndexes = (byFileName Prod.fst files).map Prod.snd := by
  have hids' : (byFileName Prod.fst files).reverse.Pairwise fun a b => a.2.fileId ≠ b.2.fileId :=
    hids.perm ((byFileName_perm Prod.fst files).symm.trans (List.reverse_perm _).symm) fun h => h.symm
  obtain ⟨loaded, hloaded, htables⟩ := Index.loadFiles_eq dir {}
    ((byFileName Prod.fst files).reverse.map fun file => (indexFile file.1.toNat, file.2)) (by
      intro file hfile
      obtain ⟨file', hfile', rfl⟩ := List.mem_map.mp hfile
      exact hload file' (by simpa using hfile')) (by
      rw [List.pairwise_map]
      exact hids') (by simp)
  refine ⟨loaded, ?_, ?_⟩
  · unfold Index.load
    rw [sortedIndexFiles_eq hkeys hnames, ← hloaded, List.map_map]
    rfl
  · rw [htables, List.map_map, List.append_nil, List.map_reverse, List.reverse_reverse]
    rfl

theorem exists_loaded {P : Platform} {dir : Dir} {tables : List SSTableIndex} (h : IndexFiles P dir tables)
    (hne : ∀ t ∈ tables, ∃ key, t.get key ≠ none) :
    ∃ table : SSTableIndex → SSTableIndex, ∀ t ∈ tables,
      SSTableIndex.load (IStream.ofBytes ((dir.lookup (indexFile t.fileId.toNat)).getD [])) = .ok (table t) ∧
        SameTable (table t) t := by
  have hread : ∀ t, ∃ loaded, t ∈ tables →
      SSTableIndex.load (IStream.ofBytes ((dir.lookup (indexFile t.fileId.toNat)).getD [])) = .ok loaded ∧
        SameTable loaded t := by
    intro t
    by_cases ht : t ∈ tables
    · obtain ⟨key, hkey⟩ := hne t ht
      obtain ⟨loaded, hload, hid, hget⟩ := SSTableIndex.load_dump P hkey
      refine ⟨loaded, fun _ => ?_⟩
      rw [(h _ _).mpr ⟨t, ht, rfl, rfl⟩]
      exact ⟨hload, hid, hget⟩
    · exact ⟨{}, fun h => absurd h ht⟩
  choose table htable using hread
  exact ⟨table, htable⟩

theorem load_indexFiles {P : Platform} {dir : Dir} {tables : List SSTableIndex}
    (h : IndexFiles P dir tables) (hdistinct : tables.Pairwise fun a b => a.fileId ≠ b.fileId)
    (hne : ∀ t ∈ tables, ∃ key, t.get key ≠ none) :
    ∃ loaded, Index.load (fun _ => false) dir {} = .ok loaded ∧
      List.Forall₂ SameTable loaded.tableIndexes (byFileName SSTableIndex.fileId tables) := by
  obtain ⟨table, htable⟩ := exists_loaded h hne
  obtain ⟨loaded, hload, hlist⟩ := load_files dir
    (tables.map fun t => (t.fileId, table t)) (by
      intro name
      rw [mem_keys_iff h]
      simp) (by
      intro file hfile
      obtain ⟨t, ht, rfl⟩ := List.mem_map.mp hfile
      exact (htable t ht).1) (List.pairwise_map.mpr hdistinct) (by
      rw [List.pairwise_map]
      apply hdistinct.imp_of_mem
      intro a b ha hb hab
      rw [(htable a ha).2.1, (htable b hb).2.1]
      exact hab)
  refine ⟨loaded, hload, ?_⟩
  rw [hlist, List.forall₂_map_left_iff]
  apply byFileName_forall₂
  rw [List.forall₂_map_left_iff, List.forall₂_same]
  intro t ht
  exact ⟨rfl, (htable t ht).2⟩

theorem load_insert {P : Platform} {dir : Dir} {tables : List SSTableIndex}
    (h : IndexFiles P dir tables) (hdistinct : tables.Pairwise fun a b => a.fileId ≠ b.fileId)
    (hne : ∀ t ∈ tables, ∃ key, t.get key ≠ none) {name : UInt32} {bytes : List UInt8} {t : SSTableIndex}
    (hload : SSTableIndex.load (IStream.ofBytes bytes) = .ok t) (hname : ∀ t' ∈ tables, t'.fileId ≠ name)
    (hid : ∀ t' ∈ tables, t'.fileId ≠ t.fileId) :
    ∃ loaded, Index.load (fun _ => false) (dir.insert (indexFile name.toNat) bytes) {} = .ok loaded ∧
      ∃ table : SSTableIndex → SSTableIndex, (∀ t' ∈ tables, SameTable (table t') t') ∧
        loaded.tableIndexes
          = (byFileName Prod.fst ((name, t) :: tables.map fun t' => (t'.fileId, table t'))).map Prod.snd := by
  obtain ⟨table, htable⟩ := exists_loaded h hne
  have hlookup : ∀ t' ∈ tables, (dir.insert (indexFile name.toNat) bytes).lookup (indexFile t'.fileId.toNat)
      = dir.lookup (indexFile t'.fileId.toNat) := by
    intro t' ht'
    apply AList.lookup_insert_ne
    exact fun heq => hname t' ht' (indexFile_toNat_injective heq)
  obtain ⟨loaded, hloaded, hlist⟩ := load_files (dir.insert (indexFile name.toNat) bytes)
    ((name, t) :: tables.map fun t => (t.fileId, table t)) (by
      intro path
      rw [← AList.mem_keys, AList.mem_insert, AList.mem_keys, mem_keys_iff h]
      simp) (by
      intro file hfile
      rcases List.mem_cons.mp hfile with rfl | hfile
      · rw [AList.lookup_insert]
        exact hload
      · obtain ⟨t', ht', rfl⟩ := List.mem_map.mp hfile
        rw [hlookup t' ht']
        exact (htable t' ht').1) (by
      rw [List.pairwise_cons, List.pairwise_map]
      refine ⟨?_, hdistinct⟩
      intro file hfile
      obtain ⟨t', ht', rfl⟩ := List.mem_map.mp hfile
      exact (hname t' ht').symm) (by
      rw [List.pairwise_cons, List.pairwise_map]
      constructor
      · intro file hfile
        obtain ⟨t', ht', rfl⟩ := List.mem_map.mp hfile
        show t.fileId ≠ (table t').fileId
        rw [(htable t' ht').2.1]
        exact (hid t' ht').symm
      · apply hdistinct.imp_of_mem
        intro a b ha hb hab
        rw [(htable a ha).2.1, (htable b hb).2.1]
        exact hab)
  exact ⟨loaded, hloaded, table, fun t' ht' => (htable t' ht').2, hlist⟩

/-! ### Registering, dumping and loading back -/

/-- The tables registered one after another. -/
def registerAll (index : Index) : List SSTableIndex → Except Fault Index
  | [] => .ok index
  | t :: tables =>
    match index.update t with
    | .error fault => .error fault
    | .ok index => registerAll index tables

/-- The directory after every table was dumped to the file of its id. -/
def dumpTables (P : Platform) (tables : List SSTableIndex) : Dir :=
  tables.foldl (fun dir t => dir.insert (indexFile t.fileId.toNat) (t.dump P)) ∅

theorem registerAll_eq (index : Index) {tables : List SSTableIndex}
    (hdistinct : tables.Pairwise fun a b => a.fileId ≠ b.fileId)
    (hnew : ∀ t ∈ tables, ∀ t' ∈ index.tableIndexes, t'.fileId ≠ t.fileId) :
    ∃ registered, registerAll index tables = .ok registered ∧
      registered.tableIndexes = tables.reverse ++ index.tableIndexes := by
  induction tables generalizing index with
  | nil => exact ⟨index, rfl, rfl⟩
  | cons t tables ih =>
    obtain ⟨hhead, htail⟩ := List.pairwise_cons.mp hdistinct
    obtain ⟨registered, hregister, htables⟩ := ih (index.pushFront t) htail (by
      intro t' ht' other hother
      rcases List.mem_cons.mp hother with rfl | hother
      · exact hhead t' ht'
      · exact hnew t' (List.mem_cons_of_mem _ ht') other hother)
    refine ⟨registered, ?_, by simp [htables]⟩
    rw [registerAll, Index.update_fresh (hnew t (by simp))]
    exact hregister

theorem indexFiles_dumpTables (P : Platform) {tables : List SSTableIndex}
    (hdistinct : tables.Pairwise fun a b => a.fileId ≠ b.fileId) :
    IndexFiles P (dumpTables P tables) tables := by
  unfold dumpTables
  induction tables using List.reverseRecOn with
  | nil =>
    intro name bytes
    simp
  | append_singleton tables t ih =>
    obtain ⟨htables, -, hlast⟩ := List.pairwise_append.mp hdistinct
    rw [List.foldl_append, List.foldl_cons, List.foldl_nil]
    apply ((ih htables).insert t fun t' ht' => hlast t' ht' t (by simp)).congr
    intro t'
    rw [List.mem_append, List.mem_singleton, List.mem_cons, or_comm]

/-! ### Recency -/

theorem getLoop_eq_find? (key : Key) (tables : List SSTableIndex) :
    Index.getLoop key tables = (tables.find? fun t => (t.get key).isSome).map fun t =>
      ⟨t.fileId, ((t.get key).getD {}).offset, ((t.get key).getD {}).size⟩ := by
  induction tables with
  | nil => rfl
  | cons t tables ih =>
    rw [Index.getLoop, List.find?_cons]
    cases h : t.get key with
    | none => simpa using ih
    | some hint => simp [h, SSTableIndex.getFileId]

/-- Among the tables with the key, the one with the greatest id has the greatest file name. -/
def NewestHasGreatestName (tables : List SSTableIndex) (key : Key) : Prop :=
  ∀ t ∈ tables, t.get key ≠ none →
    (∀ t' ∈ tables, t'.get key ≠ none → t'.fileId.toNat ≤ t.fileId.toNat) →
      ∀ t' ∈ tables, t'.get key ≠ none → indexFile t'.fileId.toNat ≤ indexFile t.fileId.toNat

/-- Listed by falling name, tables answer for a key as listed by falling id exactly when the newest table
with the key has the greatest name. -/
theorem getLoop_byFileName_iff {tables ordered : List SSTableIndex}
    (hordered : ordered.Pairwise fun a b => b.fileId.toNat < a.fileId.toNat) (hperm : ordered.Perm tables)
    (key : Key) :
    Index.getLoop key (byFileName SSTableIndex.fileId tables) = Index.getLoop key ordered ↔
      NewestHasGreatestName tables key := by
  have hdistinct : tables.Pairwise fun a b => a.fileId ≠ b.fileId := by
    have hne : ordered.Pairwise fun a b => a.fileId ≠ b.fileId := hordered.imp fun h heq => by
      rw [heq] at h
      omega
    exact hne.perm hperm fun h => h.symm
  have hselect := Selection.find?_eq_iff (fun t => (t.get key).isSome) hordered
    (byFileName_pairwise hdistinct) ((byFileName_perm SSTableIndex.fileId tables).trans hperm.symm)
  have hmap : Index.getLoop key (byFileName SSTableIndex.fileId tables) = Index.getLoop key ordered ↔
      (byFileName SSTableIndex.fileId tables).find? (fun t => (t.get key).isSome)
        = ordered.find? fun t => (t.get key).isSome := by
    rw [getLoop_eq_find?, getLoop_eq_find?]
    constructor
    · intro h
      cases hl : (byFileName SSTableIndex.fileId tables).find? fun t => (t.get key).isSome with
      | none =>
        rw [hl, Option.map_none] at h
        exact (Option.map_eq_none_iff.mp h.symm).symm
      | some t =>
        rw [hl, Option.map_some] at h
        obtain ⟨t', ht', hhint⟩ := Option.map_eq_some_iff.mp h.symm
        have hid : t'.fileId = t.fileId := congrArg SearchHint.fileId hhint
        have hmem : t ∈ tables := mem_byFileName.mp (List.mem_of_find?_eq_some hl)
        have hmem' : t' ∈ tables := hperm.mem_iff.mp (List.mem_of_find?_eq_some ht')
        have heq : t' = t :=
          List.inj_on_of_nodup_map (List.pairwise_map.mpr hdistinct) hmem' hmem hid
        rw [ht', heq]
    · intro h
      rw [h]
  rw [hmap, hselect]
  unfold NewestHasGreatestName
  simp only [hperm.mem_iff, Option.isSome_iff_ne_none]

/-- Tables numbered in the order they were registered. -/
def Numbered (tables : List SSTableIndex) : Prop :=
  ∀ i (h : i < tables.length), (tables[i]).fileId.toNat = i

theorem Numbered.pairwise {tables : List SSTableIndex} (h : Numbered tables) :
    tables.Pairwise fun a b => a.fileId.toNat < b.fileId.toNat := by
  rw [List.pairwise_iff_getElem]
  intro i j hi hj hij
  rw [h i hi, h j hj]
  exact hij

theorem newestHasGreatestName_of_length_le {tables : List SSTableIndex} (hids : Numbered tables)
    (hlen : tables.length ≤ 10) (key : Key) : NewestHasGreatestName tables key := by
  have hdigit : ∀ t ∈ tables, t.fileId.toNat < 10 := by
    intro t ht
    obtain ⟨i, hi, rfl⟩ := List.getElem_of_mem ht
    rw [hids i hi]
    omega
  have hname : ∀ i < 10, ∀ j < 10, i ≤ j → indexFile i ≤ indexFile j := by decide
  intro t ht _ hmax t' ht' hkey'
  exact hname _ (hdigit t' ht') _ (hdigit t ht) (hmax t' ht' hkey')

/-- Registering the tables and loading their dumps both succeed, with the same answer for every key. -/
def ReloadAgrees (P : Platform) (tables : List SSTableIndex) : Prop :=
  ∃ original loaded, registerAll {} tables = .ok original ∧
    Index.load (fun _ => false) (dumpTables P tables) {} = .ok loaded ∧
      ∀ key, loaded.get key = original.get key

/-- Both ways succeed; the registered tables are listed by falling id, the loaded ones by falling name. -/
theorem reload_lists (P : Platform) {tables : List SSTableIndex} (hids : Numbered tables)
    (hkeys : ∀ t ∈ tables, ∃ key, t.get key ≠ none) :
    ∃ original loaded, registerAll {} tables = .ok original ∧
      Index.load (fun _ => false) (dumpTables P tables) {} = .ok loaded ∧
      ∀ key, loaded.get key = original.get key ↔ NewestHasGreatestName tables key := by
  have hdistinct : tables.Pairwise fun a b => a.fileId ≠ b.fileId := hids.pairwise.imp fun h heq => by
    rw [heq] at h
    omega
  obtain ⟨original, horiginal, htables⟩ := registerAll_eq {} hdistinct (by simp)
  obtain ⟨loaded, hloaded, hsame⟩ := load_indexFiles (indexFiles_dumpTables P hdistinct) hdistinct hkeys
  refine ⟨original, loaded, horiginal, hloaded, ?_⟩
  intro key
  unfold Index.get
  rw [getLoop_congr hsame, htables, List.append_nil]
  apply getLoop_byFileName_iff _ tables.reverse_perm
  rw [List.pairwise_reverse]
  exact hids.pairwise

/-- A reload keeps the answers if and only if, for every key, the newest table with the key has the greatest
file name. -/
theorem reloadAgrees_iff (P : Platform) (tables : List SSTableIndex) (hids : Numbered tables)
    (hkeys : ∀ t ∈ tables, ∃ key, t.get key ≠ none) :
    ReloadAgrees P tables ↔ ∀ key, NewestHasGreatestName tables key := by
  obtain ⟨original, loaded, horiginal, hloaded, hget⟩ := reload_lists P hids hkeys
  constructor
  · rintro ⟨original', loaded', horiginal', hloaded', hget'⟩ key
    rw [horiginal] at horiginal'
    rw [hloaded] at hloaded'
    cases horiginal'
    cases hloaded'
    exact (hget key).mp (hget' key)
  · intro h
    exact ⟨original, loaded, horiginal, hloaded, fun key => (hget key).mpr (h key)⟩

/-- Tables `0` to `n - 1`, each with the one key `7`. -/
def oneKeyTables (n : Nat) : List SSTableIndex :=
  (List.range n).map fun i => SSTableIndex.insert { fileId := UInt32.ofNat i } ⟨7⟩ ⟨0, 36⟩

theorem numbered_oneKeyTables {n : Nat} (h : n ≤ 2 ^ 32) : Numbered (oneKeyTables n) := by
  intro i hi
  have hlt : i < n := by simpa [oneKeyTables] using hi
  simp only [oneKeyTables, List.getElem_map, List.getElem_range]
  exact UInt32.toNat_ofNat_of_lt (lt_of_lt_of_le hlt h)

theorem get_oneKeyTables {n : Nat} {t : SSTableIndex} (ht : t ∈ oneKeyTables n) : t.get ⟨7⟩ ≠ none := by
  obtain ⟨i, -, rfl⟩ := List.mem_map.mp ht
  rw [SSTableIndex.get_insert, if_pos rfl]
  exact Option.some_ne_none _

theorem reloadAgrees_two : ReloadAgrees plainPlatform (oneKeyTables 2) := by
  have hids : Numbered (oneKeyTables 2) := numbered_oneKeyTables (by decide)
  apply (reloadAgrees_iff plainPlatform (oneKeyTables 2) hids
    fun t ht => ⟨⟨7⟩, get_oneKeyTables ht⟩).mpr
  exact newestHasGreatestName_of_length_le hids (by decide)

/-- Of eleven tables with one key, the reload ranks table 9 before table 10. -/
theorem not_reloadAgrees_eleven :
    Numbered (oneKeyTables 11) ∧ (∀ t ∈ oneKeyTables 11, ∃ key, t.get key ≠ none) ∧
      ¬ ReloadAgrees plainPlatform (oneKeyTables 11) := by
  have hids : Numbered (oneKeyTables 11) := numbered_oneKeyTables (by decide)
  have hkeys : ∀ t ∈ oneKeyTables 11, ∃ key, t.get key ≠ none := fun t ht => ⟨⟨7⟩, get_oneKeyTables ht⟩
  refine ⟨hids, hkeys, ?_⟩
  rintro ⟨original, loaded, horiginal, hloaded, hget⟩
  obtain ⟨original', loaded', horiginal', hloaded', hget'⟩ := reload_lists plainPlatform hids hkeys
  rw [horiginal] at horiginal'
  rw [hloaded] at hloaded'
  cases horiginal'
  cases hloaded'
  have hnewest := (hget' ⟨7⟩).mp (hget ⟨7⟩)
  have hnine : SSTableIndex.insert { fileId := 9 } ⟨7⟩ ⟨0, 36⟩ ∈ oneKeyTables 11 :=
    List.mem_map.mpr ⟨9, by decide, rfl⟩
  have hten : SSTableIndex.insert { fileId := 10 } ⟨7⟩ ⟨0, 36⟩ ∈ oneKeyTables 11 :=
    List.mem_map.mpr ⟨10, by decide, rfl⟩
  have hmax : ∀ t ∈ oneKeyTables 11, t.get ⟨7⟩ ≠ none → t.fileId.toNat ≤ 10 := by decide
  have hle := hnewest _ hten (get_oneKeyTables hten) hmax _ hnine (get_oneKeyTables hnine)
  exact absurd hle (by decide)

end OmxDb
