import DataLineage.Graph.OfRegistry
import DataLineage.Project.Fingerprint
import DataLineage.Proofs.PositionTable
import Mathlib.Data.List.InsertIdx

/-!
# The table of a registry

A registry that was built by edits finds each record at the place of its name. So what it answers,
and the graph that is made of it, depend on its records alone.

* `Registry.Built.indexes`: insertions and removals keep the table in step with the records.
* `Registry.Built.get?_eq_find?`: a look-up answers as a search through the records would.
* `Registry.Built.get?_congr`: registries with the same records give the same answers.
* `Graph.ofRegistry_congr`: registries with the same records have the same graph.
-/

namespace DataLineage

variable {r s : Registry}

namespace Registry

/-- The registries that insertions and removals make of the empty one. -/
inductive Built : Registry → Prop where
  | empty : Built empty
  | insert {r : Registry} (h : Built r) (record : ObjectRecord) : Built (r.insert record).1
  | remove {r : Registry} (h : Built r) (name : String) : Built (r.remove name).1

theorem Built.extend (h : Built r) (records : List ObjectRecord) : Built (r.extend records) := by
  induction records generalizing r with
  | nil => exact h
  | cons record records ih => exact ih (h.insert record)

theorem Built.ofList (records : List ObjectRecord) : Built (ofList records) :=
  Built.empty.extend records

theorem length_names (r : Registry) : r.names.length = r.records.size := by simp [names, toList]

/-- A record that takes the place of one of its name leaves the names as they are. -/
theorem names_insert_of_some {record : ObjectRecord} {i : ℕ} (h : Indexes r.positions r.names)
    (hi : r.positions[record.name]? = some i) : (r.insert record).1.names = r.names := by
  obtain ⟨hlt, hname⟩ := List.getElem?_eq_some_iff.1 ((h _ _).1 hi)
  have hset : (r.insert record).1.names = r.names.set i record.name := by
    simp [names, toList, records_insert, hi, List.map_set]
  rw [hset, ← hname, List.set_getElem_self]

theorem indexes_insert (h : Indexes r.positions r.names) (record : ObjectRecord) :
    Indexes (r.insert record).1.positions (r.insert record).1.names := by
  cases hi : r.positions[record.name]? with
  | some i =>
    rw [names_insert_of_some h hi]
    simpa only [insert, hi] using h
  | none =>
    have hpush := h.push (h.eq_none_iff.1 hi)
    rw [length_names] at hpush
    have hnames : (r.insert record).1.names = r.names ++ [record.name] := by
      simp [names, toList, records_insert, hi]
    rw [hnames]
    simpa only [insert, hi] using hpush

theorem indexes_remove (h : Indexes r.positions r.names) (name : String) :
    Indexes (r.remove name).1.positions (r.remove name).1.names := by
  cases hi : r.positions[name]? with
  | none => simpa only [remove, hi] using h
  | some i =>
    have hlt : i < r.records.size := by
      have := h.lt_length hi
      rwa [length_names] at this
    have hnames : (r.remove name).1.names = r.names.eraseIdx i := by
      simp [names, toList, records_remove, hi, Array.eraseIdxIfInBounds, hlt, List.eraseIdx_map]
    rw [hnames]
    simpa only [remove, hi] using h.eraseIdx hi

/-- **The table of a registry finds each name at its record.** -/
theorem Built.indexes (h : Built r) : Indexes r.positions r.names := by
  induction h with
  | empty => exact Indexes.empty
  | insert _ record ih => exact indexes_insert ih record
  | remove _ name ih => exact indexes_remove ih name

theorem Built.nodup_names (h : Built r) : (r.toList.map ObjectRecord.name).Nodup := h.indexes.nodup

/-- A registry has one record of each name. -/
theorem Built.eq_of_name_eq (h : Built r) {p q : ObjectRecord} (hp : p ∈ r.toList)
    (hq : q ∈ r.toList) (hpq : p.name = q.name) : p = q :=
  List.inj_on_of_nodup_map h.nodup_names hp hq hpq

theorem Built.get?_eq_some_iff (h : Built r) {name : String} {p : ObjectRecord} :
    r.get? name = some p ↔ p ∈ r.toList ∧ p.name = name := by
  rw [get?, Option.bind_eq_some_iff]
  constructor
  · rintro ⟨i, hi, hp⟩
    have hname : r.names[i]? = some name := (h.indexes name i).1 hi
    rw [names, toList, List.getElem?_map, Array.getElem?_toList, hp, Option.map_some] at hname
    exact ⟨Array.mem_toList_iff.2 (Array.mem_of_getElem? hp), Option.some.inj hname⟩
  · rintro ⟨hp, rfl⟩
    obtain ⟨i, hi⟩ := List.mem_iff_getElem?.1 hp
    refine ⟨i, (h.indexes _ i).2 ?_, by rwa [toList, Array.getElem?_toList] at hi⟩
    rw [names, List.getElem?_map, hi, Option.map_some]

/-- **A look-up answers as a search through the records would.** -/
theorem Built.get?_eq_find? (h : Built r) (name : String) :
    r.get? name = r.toList.find? fun p => p.name == name := by
  cases hfind : r.toList.find? fun p => p.name == name with
  | none =>
    rw [Option.eq_none_iff_forall_ne_some]
    intro p hget
    obtain ⟨hp, hname⟩ := h.get?_eq_some_iff.1 hget
    exact List.find?_eq_none.1 hfind p hp (beq_iff_eq.2 hname)
  | some p =>
    have hname : p.name = name := by simpa using List.find?_some hfind
    exact h.get?_eq_some_iff.2 ⟨List.mem_of_find?_eq_some hfind, hname⟩

/-- **Registries with the same records give the same answers.** -/
theorem Built.get?_congr (hr : Built r) (hs : Built s) (h : r.toList = s.toList) :
    r.get? = s.get? := by
  have hrecords : r.records = s.records := Array.toList_inj.1 h
  have hnames : s.names = r.names := by rw [names, names, h]
  have hindex := hs.indexes
  rw [hnames] at hindex
  funext name
  rw [get?, get?, hr.indexes.getElem?_congr hindex name, hrecords]

theorem fingerprint_congr (h : r.toList = s.toList) : r.fingerprint = s.fingerprint := by
  rw [fingerprint, fingerprint, encode, encode, h]

end Registry

/-- The edges into a record need no more of a registry than the answers to its names. -/
theorem EdgeList.addRecord_congr (o : BuildOptions) (h : r.get? = s.get?) :
    addRecord o r = addRecord o s := by
  have hadd : References.add r = References.add s := by
    funext refs name
    rw [References.add, References.add, h]
  have hedge : o.inferredEdge? r = o.inferredEdge? s := by
    funext record refs
    rw [BuildOptions.inferredEdge?, BuildOptions.inferredEdge?, BuildOptions.defaultSourceIn?,
      BuildOptions.defaultSourceIn?, h]
  funext list record
  rw [addRecord, addRecord, References.ofNames, References.ofNames, hadd, hedge]

/-- **Registries with the same records have the same graph.** -/
theorem Graph.ofRegistry_congr (o : BuildOptions) (hr : r.Built) (hs : s.Built)
    (h : r.toList = s.toList) : Graph.ofRegistry o r = Graph.ofRegistry o s := by
  have hadd := EdgeList.addRecord_congr o (hr.get?_congr hs h)
  simp only [Graph.ofRegistry, BuiltGraph.ofRegistry, EdgeList.ofRegistry, h, hadd]

end DataLineage
