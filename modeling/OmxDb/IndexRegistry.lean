import Mathlib.Data.List.Dedup
import OmxDb.Index
import OmxDb.Lib.Histories
import OmxDb.Lib.Runs

/-!
# The registry of table indexes

`Index` keeps its tables twice: in a list, most recently registered first, and behind a map from file ids to list
nodes. `insert` finds a table through the map, `get` walks the list. Which calls are to be accepted is said without
the registry: every hint, and a table whose id no earlier call was about (`Accepts`). Against the accepted calls
(`Registered`) the list is in the order in which the ids first came up, the map points every id to its own node, and
every table holds what was recorded for it; so exactly the calls to be accepted return, and a lookup is the latest
hint in the most recently registered table with the key (`registry_run`).
-/

namespace OmxDb

namespace Index

/-! ### Operations -/

/-- The list nodes by number. -/
def nodes (index : Index) : List SSTableIndex := index.tableIndexes.reverse

theorem map_fileId_modify {tables : List SSTableIndex} {node : Nat} {key : Key} {hint : FileSearchHint} :
    (tables.modify node fun t => t.insert key hint).map SSTableIndex.fileId = tables.map SSTableIndex.fileId := by
  apply List.ext_getElem?
  intro i
  rw [List.getElem?_map, List.getElem?_map, List.getElem?_modify]
  cases tables[i]? with
  | none => rfl
  | some t =>
    by_cases h : node = i
    · simp [h, SSTableIndex.insert]
    · simp [h]

theorem mem_iff_of_fileIds {tables tables' : List SSTableIndex}
    (h : tables'.map SSTableIndex.fileId = tables.map SSTableIndex.fileId) (fileId : UInt32) :
    (∃ t ∈ tables', t.fileId = fileId) ↔ ∃ t ∈ tables, t.fileId = fileId := by
  rw [← List.mem_map, ← List.mem_map, h]

/-- `(*it->second)->insert(key, hint)`, where the iterator is this node. -/
def insertAt (index : Index) (node : Nat) (key : Key) (hint : FileSearchHint) : Index where
  tableIndexes := (index.nodes.modify node fun t => t.insert key hint).reverse
  map := index.map
  registered fileId := by
    rw [index.registered, mem_iff_of_fileIds]
    rw [List.map_reverse, map_fileId_modify, ← List.map_reverse, nodes, List.reverse_reverse]

/-- A table whose id is not in the map goes through the trusted path of `update`. -/
def insert (index : Index) (key : Key) (hint : SearchHint) : Index :=
  match index.map.lookup hint.fileId with
  | none =>
    index.pushFront (({ fileId := hint.fileId } : SSTableIndex).insert key ⟨hint.offset, hint.size⟩)
  | some node => index.insertAt node key ⟨hint.offset, hint.size⟩

/-- `get` with its output argument: whether it returns true, and the hint it leaves. -/
def getHint (index : Index) (key : Key) : Bool × SearchHint :=
  match index.get key with
  | some hint => (true, hint)
  | none => (false, {})

/-! ### Calls -/

inductive Call where
  | insert (key : Key) (hint : SearchHint)
  | update (tableIndex : SSTableIndex)

/-- What the call leaves, whether it returns or throws. -/
def call (index : Index) : Call → Index × Except Fault Unit
  | .insert key hint => (index.insert key hint, .ok ())
  | .update tableIndex =>
    match index.update tableIndex with
    | .error fault => (index, .error fault)
    | .ok index => (index, .ok ())

def run (index : Index) (calls : List Call) : Index := Runs.run (fun index c => (index.call c).1) index calls

/-! ### What a history has recorded -/

/-- The table a call is about. -/
def Call.fileId : Call → UInt32
  | .insert _ hint => hint.fileId
  | .update tableIndex => tableIndex.fileId

/-- A hint is always accepted, a table where no earlier call was about its id. -/
def Accepts (earlier : List Call) : Call → Prop
  | .insert _ _ => True
  | .update tableIndex => ∀ c ∈ earlier, c.fileId ≠ tableIndex.fileId

instance (earlier : List Call) : DecidablePred (Accepts earlier)
  | .insert _ _ => inferInstanceAs (Decidable True)
  | .update tableIndex => inferInstanceAs (Decidable (∀ c ∈ earlier, c.fileId ≠ tableIndex.fileId))

/-- The calls to be accepted behind earlier ones. -/
def accepted (earlier : List Call) : List Call → List Call
  | [] => []
  | c :: calls =>
    if Accepts earlier c then c :: accepted (earlier ++ [c]) calls else accepted (earlier ++ [c]) calls

/-- The hint a call records for a key. -/
def Call.hint (key : Key) : Call → Option FileSearchHint
  | .insert key' hint => if key' = key then some ⟨hint.offset, hint.size⟩ else none
  | .update tableIndex => tableIndex.get key

/-- The registered ids, the one that first came up last in front. -/
def recency (done : List Call) : List UInt32 := (done.reverse.map Call.fileId).dedup

/-- The latest hint recorded for a key in a table. -/
def recorded (done : List Call) (fileId : UInt32) (key : Key) : Option FileSearchHint :=
  Histories.latest (fun c => if c.fileId = fileId then c.hint key else none) done

/-- The latest hint recorded for a key in the most recently registered table that has one. -/
def answer (done : List Call) (key : Key) : Option SearchHint :=
  (recency done).findSome? fun fileId =>
    (recorded done fileId key).map fun hint => ⟨fileId, hint.offset, hint.size⟩

theorem mem_recency {done : List Call} {fileId : UInt32} :
    fileId ∈ recency done ↔ ∃ c ∈ done, c.fileId = fileId := by
  simp [recency, List.mem_dedup]

theorem recency_append_of_mem {done : List Call} {c : Call} (h : c.fileId ∈ recency done) :
    recency (done ++ [c]) = recency done := by
  unfold recency at h ⊢
  rw [List.reverse_append, List.reverse_singleton, List.singleton_append, List.map_cons,
    List.dedup_cons_of_mem (List.mem_dedup.mp h)]

theorem recency_append_of_not {done : List Call} {c : Call} (h : c.fileId ∉ recency done) :
    recency (done ++ [c]) = c.fileId :: recency done := by
  unfold recency at h ⊢
  rw [List.reverse_append, List.reverse_singleton, List.singleton_append, List.map_cons,
    List.dedup_cons_of_notMem fun hmem => h (List.mem_dedup.mpr hmem)]

theorem recorded_append (done : List Call) (c : Call) (fileId : UInt32) (key : Key) :
    recorded (done ++ [c]) fileId key
      = if c.fileId = fileId then (c.hint key).or (recorded done fileId key) else recorded done fileId key := by
  unfold recorded
  rw [Histories.latest_append_singleton]
  split_ifs <;> rfl

theorem recorded_eq_none {done : List Call} {fileId : UInt32} (h : fileId ∉ recency done) (key : Key) :
    recorded done fileId key = none := by
  unfold recorded Histories.latest
  rw [List.findSome?_eq_none_iff]
  intro c hc
  rw [List.mem_reverse] at hc
  exact if_neg fun hid => h (mem_recency.mpr ⟨c, hc, hid⟩)

/-! ### The registry stands for its history -/

/-- List, map and tables against the calls accepted. -/
structure Registered (index : Index) (done : List Call) : Prop where
  order : index.tableIndexes.map SSTableIndex.fileId = recency done
  nodes : ∀ fileId node, index.map.lookup fileId = some node →
    ∃ t, index.nodes[node]? = some t ∧ t.fileId = fileId
  hints : ∀ t ∈ index.tableIndexes, ∀ key, t.get key = recorded done t.fileId key

namespace Registered

variable {index : Index} {done : List Call}

theorem mem_map (h : Registered index done) (fileId : UInt32) : fileId ∈ index.map ↔ fileId ∈ recency done := by
  rw [index.registered, ← h.order, List.mem_map]

theorem get_eq (h : Registered index done) (key : Key) : index.get key = answer done key := by
  unfold Index.get answer
  rw [getLoop_eq, ← h.order, List.findSome?_map]
  have hcongr : ∀ tables : List SSTableIndex, (∀ t ∈ tables, t.get key = recorded done t.fileId key) →
      (tables.findSome? fun t => (t.get key).map fun hint => (⟨t.fileId, hint.offset, hint.size⟩ : SearchHint))
        = tables.findSome? ((fun fileId => (recorded done fileId key).map
          fun hint => ⟨fileId, hint.offset, hint.size⟩) ∘ SSTableIndex.fileId) := by
    intro tables htables
    induction tables with
    | nil => rfl
    | cons t tables ih =>
      rw [List.findSome?_cons, List.findSome?_cons, Function.comp_apply, htables t (by simp),
        ih fun t' ht' => htables t' (List.mem_cons_of_mem _ ht')]
  exact hcongr index.tableIndexes fun t ht => h.hints t ht key

theorem pushFront (h : Registered index done) {t : SSTableIndex} {c : Call} (hnew : t.fileId ∉ recency done)
    (hid : c.fileId = t.fileId) (hhint : ∀ key, t.get key = c.hint key) :
    Registered (index.pushFront t) (done ++ [c]) where
  order := by
    rw [tableIndexes_pushFront, List.map_cons, h.order, recency_append_of_not (hid ▸ hnew), hid]
  nodes fileId node hlookup := by
    have hnodes : (index.pushFront t).nodes = index.nodes ++ [t] := List.reverse_cons
    rw [hnodes]
    unfold Index.pushFront at hlookup
    by_cases heq : fileId = t.fileId
    · subst heq
      rw [AList.lookup_insert, Option.some.injEq] at hlookup
      refine ⟨t, ?_, rfl⟩
      rw [← hlookup, show index.tableIndexes.length = index.nodes.length from List.length_reverse.symm]
      simp
    · rw [AList.lookup_insert_ne heq] at hlookup
      obtain ⟨t', ht', hid'⟩ := h.nodes fileId node hlookup
      exact ⟨t', List.getElem?_append_left (List.getElem?_eq_some_iff.mp ht').1 ▸ ht', hid'⟩
  hints t' ht' key := by
    rw [recorded_append]
    rcases List.mem_cons.mp ht' with rfl | ht'
    · rw [if_pos hid, recorded_eq_none hnew, hhint, Option.or_none]
    · have hne : c.fileId ≠ t'.fileId := by
        rw [hid]
        intro heq
        refine hnew ?_
        rw [heq, ← h.order]
        exact List.mem_map_of_mem ht'
      rw [if_neg hne]
      exact h.hints t' ht' key

theorem insertAt (h : Registered index done) {key : Key} {hint : SearchHint} {node : Nat}
    (hlookup : index.map.lookup hint.fileId = some node) :
    Registered (index.insertAt node key ⟨hint.offset, hint.size⟩) (done ++ [.insert key hint]) := by
  have hmem : hint.fileId ∈ recency done :=
    (h.mem_map _).mp (AList.lookup_isSome.mp (Option.isSome_of_mem hlookup))
  have hnodup : (index.nodes.map SSTableIndex.fileId).Nodup := by
    unfold Index.nodes
    rw [List.map_reverse, List.nodup_reverse, h.order]
    exact List.nodup_dedup _
  obtain ⟨t, ht, hid⟩ := h.nodes _ node hlookup
  have hnodes : (index.insertAt node key ⟨hint.offset, hint.size⟩).nodes
      = index.nodes.modify node fun t => t.insert key ⟨hint.offset, hint.size⟩ := List.reverse_reverse _
  refine ⟨?_, ?_, ?_⟩
  · rw [recency_append_of_mem hmem, ← h.order, ← List.reverse_inj, ← List.map_reverse, ← List.map_reverse]
    exact (congrArg (List.map SSTableIndex.fileId) hnodes).trans map_fileId_modify
  · intro fileId node' hlookup'
    obtain ⟨t', ht', hid'⟩ := h.nodes fileId node' hlookup'
    rw [hnodes, List.getElem?_modify, ht']
    refine ⟨_, rfl, ?_⟩
    rw [← hid']
    split_ifs <;> rfl
  · intro t' ht' key'
    have ht' : t' ∈ (index.insertAt node key ⟨hint.offset, hint.size⟩).nodes := List.mem_reverse.mpr ht'
    obtain ⟨i, hi⟩ := List.getElem?_of_mem ht'
    rw [hnodes, List.getElem?_modify] at hi
    obtain ⟨old, hold, hmodify⟩ := Option.map_eq_some_iff.mp hi
    have hhints := h.hints old (List.mem_reverse.mp (List.mem_of_getElem? hold)) key'
    rw [recorded_append]
    by_cases hnode : node = i
    · -- the table of the hint
      subst hnode
      rw [ht, Option.some.injEq] at hold
      subst hold
      simp only [if_true] at hmodify
      subst hmodify
      have hid' : (Call.insert key hint).fileId = (t.insert key ⟨hint.offset, hint.size⟩).fileId := hid.symm
      have hcall : (Call.insert key hint).hint key'
          = if key = key' then some ⟨hint.offset, hint.size⟩ else none := rfl
      have hfileId : (t.insert key ⟨hint.offset, hint.size⟩).fileId = t.fileId := rfl
      rw [if_pos hid', SSTableIndex.get_insert, hhints, hcall, hfileId]
      split_ifs <;> rfl
    · -- another table, with another id
      simp only [if_neg hnode] at hmodify
      subst hmodify
      have hne : (Call.insert key hint).fileId ≠ old.fileId := by
        intro heq
        have hlt : node < (index.nodes.map SSTableIndex.fileId).length := by
          rw [List.length_map]
          exact (List.getElem?_eq_some_iff.mp ht).1
        apply hnode
        rw [← List.getElem?_inj hlt hnodup, List.getElem?_map, List.getElem?_map, ht, hold]
        exact congrArg some (hid.trans heq)
      rw [if_neg hne]
      exact hhints

/-- The ids of the calls made are the registered ones. -/
def Known (earlier done : List Call) : Prop := ∀ fileId, fileId ∈ recency done ↔ ∃ c ∈ earlier, c.fileId = fileId

theorem call {earlier : List Call} (h : Registered index done) (hknown : Known earlier done) (c : Call) :
    (¬ Accepts earlier c ∧ index.call c = (index, .error (.runtimeError "file id is already indexed")) ∧
      Known (earlier ++ [c]) done) ∨
    (Accepts earlier c ∧ ∃ index', index.call c = (index', .ok ()) ∧ Registered index' (done ++ [c]) ∧
      Known (earlier ++ [c]) (done ++ [c])) := by
  have hboth : Known (earlier ++ [c]) (done ++ [c]) := by
    intro fileId
    have hmade := hknown fileId
    rw [mem_recency] at hmade ⊢
    simp only [List.mem_append, List.mem_singleton, or_and_right, exists_or, exists_eq_left, hmade]
  cases c with
  | insert key hint =>
    refine Or.inr ⟨trivial, _, rfl, ?_, hboth⟩
    unfold Index.insert
    cases hlookup : index.map.lookup hint.fileId with
    | none =>
      have hnew : hint.fileId ∉ recency done := by
        rw [← h.mem_map]
        exact AList.lookup_eq_none.mp hlookup
      apply h.pushFront hnew rfl
      intro key'
      rw [SSTableIndex.get_insert]
      rfl
    | some node => exact h.insertAt hlookup
  | update tableIndex =>
    by_cases hmem : tableIndex.getFileId ∈ index.map
    · have hearlier := (hknown _).mp ((h.mem_map _).mp hmem)
      refine Or.inl ⟨?_, ?_, ?_⟩
      · obtain ⟨c, hc, hid⟩ := hearlier
        intro haccepts
        exact haccepts c hc hid
      · simp only [Index.call, Index.update, if_pos hmem]
      · intro fileId
        rw [hknown]
        constructor
        · rintro ⟨c, hc, hid⟩
          exact ⟨c, List.mem_append_left _ hc, hid⟩
        · rintro ⟨c, hc, hid⟩
          rcases List.mem_append.mp hc with hc | hc
          · exact ⟨c, hc, hid⟩
          · rw [← hid, List.mem_singleton.mp hc]
            exact hearlier
    · have hnew : tableIndex.fileId ∉ recency done := fun hin => hmem ((h.mem_map _).mpr hin)
      refine Or.inr ⟨?_, index.pushFront tableIndex, ?_, h.pushFront hnew rfl fun _ => rfl, hboth⟩
      · intro c hc hid
        exact hnew ((hknown _).mpr ⟨c, hc, hid⟩)
      · simp only [Index.call, Index.update, if_neg hmem]

theorem run {earlier : List Call} (h : Registered index done) (hknown : Known earlier done) (calls : List Call) :
    Registered (index.run calls) (done ++ accepted earlier calls) ∧
      Known (earlier ++ calls) (done ++ accepted earlier calls) := by
  induction calls generalizing index earlier done with
  | nil => simpa [Index.run, accepted] using ⟨h, hknown⟩
  | cons c calls ih =>
    have hrun : index.run (c :: calls) = (index.call c).1.run calls := rfl
    have hcalls : earlier ++ c :: calls = earlier ++ [c] ++ calls := by simp
    rw [hrun, hcalls, accepted]
    rcases h.call hknown c with ⟨hrefused, hcall, hknown'⟩ | ⟨haccepts, index', hcall, hindex', hknown'⟩
    · rw [hcall, if_neg hrefused]
      exact ih h hknown'
    · have hrest := ih hindex' hknown'
      rw [List.append_assoc done, List.singleton_append] at hrest
      rw [hcall, if_pos haccepts]
      exact hrest

end Registered

/-- Every file id occurs once in the list, the map holds exactly these ids, and sends each to its own table. -/
structure RegistryInv (index : Index) : Prop where
  distinct : (index.tableIndexes.map SSTableIndex.fileId).Nodup
  mapped : ∀ fileId, fileId ∈ index.map ↔ ∃ t ∈ index.tableIndexes, t.fileId = fileId
  own : ∀ fileId node, index.map.lookup fileId = some node →
    ∃ t, index.nodes[node]? = some t ∧ t.fileId = fileId

/-- After any calls the registry is consistent, and a lookup is the latest hint the accepted calls recorded in the most
recently registered table with the key. A call is refused exactly if it brings a table whose id an earlier call was
about, and then it changes no later lookup. -/
theorem registry_run (calls : List Call) :
    RegistryInv (({} : Index).run calls) ∧
    (∀ key, (({} : Index).run calls).getHint key =
      match answer (accepted [] calls) key with
      | some hint => (true, hint)
      | none => (false, {})) ∧
    (∀ before c after, calls = before ++ c :: after →
      ((({} : Index).run before).call c).2 =
        if Accepts before c then .ok () else .error (.runtimeError "file id is already indexed")) ∧
    ∀ before c after fault, calls = before ++ c :: after →
      ((({} : Index).run before).call c).2 = .error fault →
      ∀ key, (({} : Index).run calls).getHint key = (({} : Index).run (before ++ after)).getHint key := by
  have hempty : Registered ({} : Index) [] := by
    refine ⟨rfl, fun _ _ h => ?_, fun _ h => ?_⟩
    · cases h
    · cases h
  have hnone : Registered.Known [] [] := fun fileId => by simp [recency]
  have hrun : ∀ calls, Registered (({} : Index).run calls) (accepted [] calls) ∧
      Registered.Known calls (accepted [] calls) := fun calls => hempty.run hnone calls
  refine ⟨⟨?_, Index.registered _, (hrun calls).1.nodes⟩, ?_, ?_, ?_⟩
  · rw [(hrun calls).1.order]
    exact List.nodup_dedup _
  · intro key
    unfold getHint
    rw [(hrun calls).1.get_eq]
  · intro before c after hcalls
    rcases (hrun before).1.call (hrun before).2 c with ⟨hrefused, hcall, -⟩ | ⟨haccepts, index', hcall, -⟩
    · rw [hcall, if_neg hrefused]
    · rw [hcall, if_pos haccepts]
  · intro before c after fault hcalls hfault key
    rcases (hrun before).1.call (hrun before).2 c with ⟨-, hcall, -⟩ | ⟨-, index', hcall, -⟩
    · rw [hcalls]
      unfold Index.run at hcall ⊢
      rw [Runs.run_append, Runs.run_cons, Runs.run_append, hcall]
    · rw [hcall] at hfault
      cases hfault

end Index

end OmxDb
