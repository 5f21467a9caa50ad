import DataLineage.Proofs.RegistryTables

/-!
# Runs of edits

A registry looks records up in a table, and each edit has to keep the table in step: a removal moves
every later record. A plain list of records has no table and is searched from its front. However a
registry was edited, it holds the records that the list holds after the same edits, and both gave
the same answers on the way.

* `Registry.Built.insert_eq_put`, `Registry.Built.remove_eq_take`: one edit, on a registry and on
  the list of its records.
* `Registry.Built.edits_eq_run`: a run of edits.
* `Registry.Built.beq_iff`: registries are equal when their records are.
* `Registry.edits_like_list`: the statement.
-/

namespace DataLineage

/-! ## Edits of a plain list -/

namespace RecordList

/-- Puts a record in the place of the first one of its name, which is the answer, or at the end. -/
def put (record : ObjectRecord) : List ObjectRecord → List ObjectRecord × Option ObjectRecord
  | [] => ([record], none)
  | p :: records =>
    if p.name = record.name then (record :: records, some p)
    else (p :: (put record records).1, (put record records).2)

/-- Takes the first record of a name out of the list. -/
def take (name : String) : List ObjectRecord → List ObjectRecord × Option ObjectRecord
  | [] => ([], none)
  | p :: records =>
    if p.name = name then (records, some p)
    else (p :: (take name records).1, (take name records).2)

/-- Puts records into a list one after the other. -/
def putAll (records new : List ObjectRecord) : List ObjectRecord :=
  new.foldl (fun records record => (put record records).1) records

/-- Putting a record looks for the place of its name. -/
theorem put_eq (record : ObjectRecord) (records : List ObjectRecord) :
    put record records = match records.findIdx? (·.name == record.name) with
      | some i => (records.set i record, records[i]?)
      | none => (records ++ [record], none) := by
  induction records with
  | nil => rfl
  | cons p records ih =>
    rw [put, List.findIdx?_cons]
    by_cases hp : p.name = record.name
    · simp [hp]
    · rw [if_neg hp, ih, if_neg (by simpa using hp)]
      cases records.findIdx? (·.name == record.name) <;> rfl

/-- Taking a record looks for the place of the name. -/
theorem take_eq (name : String) (records : List ObjectRecord) :
    take name records = match records.findIdx? (·.name == name) with
      | some i => (records.eraseIdx i, records[i]?)
      | none => (records, none) := by
  induction records with
  | nil => rfl
  | cons p records ih =>
    rw [take, List.findIdx?_cons]
    by_cases hp : p.name = name
    · simp [hp]
    · rw [if_neg hp, ih, if_neg (by simpa using hp)]
      cases records.findIdx? (·.name == name) <;> rfl

end RecordList

namespace Registry

open RecordList (put take putAll)

/-! ## Edits of a registry -/

/-- One edit: a record comes in, a name goes out, or records come in one after the other. -/
inductive Edit where
  | insert (record : ObjectRecord)
  | remove (name : String)
  | extend (records : List ObjectRecord)

/-- The registry after an edit, and the record that the edit answers. -/
def edit (r : Registry) : Edit → Registry × Option ObjectRecord
  | .insert record => r.insert record
  | .remove name => r.remove name
  | .extend records => (r.extend records, none)

/-- The registry after a run of edits, and what they answered. -/
def edits (r : Registry) : List Edit → Registry × List (Option ObjectRecord)
  | [] => (r, [])
  | e :: es => (((r.edit e).1.edits es).1, (r.edit e).2 :: ((r.edit e).1.edits es).2)

/-- The same edit of a plain list. -/
def Edit.onList (records : List ObjectRecord) : Edit → List ObjectRecord × Option ObjectRecord
  | .insert record => put record records
  | .remove name => take name records
  | .extend new => (putAll records new, none)

/-- The same run of edits of a plain list. -/
def Edit.run (records : List ObjectRecord) :
    List Edit → List ObjectRecord × List (Option ObjectRecord)
  | [] => (records, [])
  | e :: es =>
    ((run (e.onList records).1 es).1, (e.onList records).2 :: (run (e.onList records).1 es).2)

variable {r s : Registry}

theorem Built.edit (h : Built r) (e : Edit) : Built (r.edit e).1 := by
  cases e with
  | insert record => exact h.insert record
  | remove name => exact h.remove name
  | extend records => exact h.extend records

theorem Built.edits (h : Built r) (es : List Edit) : Built (r.edits es).1 := by
  induction es generalizing r with
  | nil => exact h
  | cons e es ih => exact ih (h.edit e)

/-- The place of a name is that of the first record of the name. -/
theorem Built.positions_eq (h : Built r) (name : String) :
    r.positions[name]? = r.toList.findIdx? (·.name == name) := by
  rw [h.indexes.getElem?_eq_findIdx?, names, List.findIdx?_map]
  rfl

/-- **An insertion** is one into the list of records. -/
theorem Built.insert_eq_put (h : Built r) (record : ObjectRecord) :
    ((r.insert record).1.toList, (r.insert record).2) = put record r.toList := by
  rw [RecordList.put_eq, ← h.positions_eq, Registry.insert]
  cases r.positions[record.name]? <;> simp [toList]

/-- **A removal** is one from the list of records. -/
theorem Built.remove_eq_take (h : Built r) (name : String) :
    ((r.remove name).1.toList, (r.remove name).2) = take name r.toList := by
  rw [RecordList.take_eq, ← h.positions_eq, Registry.remove]
  cases hi : r.positions[name]? with
  | none => rfl
  | some i =>
    have hlt : i < r.records.size := by
      have := h.indexes.lt_length hi
      rwa [length_names] at this
    simp [toList, Array.eraseIdxIfInBounds, hlt]

theorem Built.toList_extend (h : Built r) (records : List ObjectRecord) :
    (r.extend records).toList = putAll r.toList records := by
  induction records generalizing r with
  | nil => rfl
  | cons record records ih =>
    have hfirst : (r.insert record).1.toList = (put record r.toList).1 :=
      congrArg Prod.fst (h.insert_eq_put record)
    have hrest := ih (h.insert record)
    rw [hfirst] at hrest
    exact hrest

/-- One edit does to a registry what it does to the list of its records. -/
theorem Built.edit_eq_onList (h : Built r) (e : Edit) :
    ((r.edit e).1.toList, (r.edit e).2) = e.onList r.toList := by
  cases e with
  | insert record => exact h.insert_eq_put record
  | remove name => exact h.remove_eq_take name
  | extend records => exact congrArg (·, none) (h.toList_extend records)

/-- **A run of edits** does to a registry what it does to the list of its records, with the same
answers. -/
theorem Built.edits_eq_run (h : Built r) (es : List Edit) :
    ((r.edits es).1.toList, (r.edits es).2) = Edit.run r.toList es := by
  induction es generalizing r with
  | nil => rfl
  | cons e es ih =>
    have hrest := ih (h.edit e)
    rw [Edit.run, ← h.edit_eq_onList e]
    dsimp only
    rw [← hrest]
    rfl

/-! ## What a registry answers -/

/-- A name is there when a record of it is. -/
theorem Built.contains_eq_any (h : Built r) (name : String) :
    r.contains name = r.toList.any (·.name == name) := by
  rw [Bool.eq_iff_iff, contains, h.indexes.contains_iff_mem, names, List.mem_map, List.any_eq_true]
  simp only [beq_iff_eq]

/-- **Registries are equal when their records are.** -/
theorem Built.beq_iff (hr : Built r) (hs : Built s) : (r == s) = true ↔ r.toList = s.toList := by
  have hdef : (r == s) = (r.records == s.records && r.positions == s.positions) := rfl
  rw [hdef, Bool.and_eq_true, beq_iff_eq, Std.TreeMap.beq_iff_equiv]
  constructor
  · rintro ⟨hrecords, -⟩
    rw [toList, toList, hrecords]
  · intro h
    refine ⟨Array.toList_inj.1 h, Std.TreeMap.Equiv.of_forall_constGet?_eq fun name => ?_⟩
    rw [hr.positions_eq, hs.positions_eq, h]

/-- Records with distinct names all come to the end. -/
theorem putAll_of_nodup {records new : List ObjectRecord}
    (h : ((records ++ new).map ObjectRecord.name).Nodup) :
    putAll records new = records ++ new := by
  induction new generalizing records with
  | nil => simp [putAll]
  | cons record new ih =>
    have hnone : records.findIdx? (·.name == record.name) = none := by
      rw [List.findIdx?_eq_none_iff]
      intro p hp
      rw [List.map_append, List.nodup_append] at h
      simpa using h.2.2 p.name (List.mem_map_of_mem hp) record.name (by simp)
    have hput : (put record records).1 = records ++ [record] := by
      rw [RecordList.put_eq, hnone]
    have hrest : putAll (records ++ [record]) new = records ++ [record] ++ new :=
      ih (by simpa using h)
    rw [putAll, List.foldl_cons, hput, ← putAll, hrest, List.append_assoc]
    rfl

/-- Collecting the records of a registry gives its records. -/
theorem Built.toList_ofList_toList (h : Built r) :
    (Registry.ofList r.toList).toList = r.toList := by
  have hcollect := Built.empty.toList_extend r.toList
  have hnodup := h.nodup_names
  rw [← List.nil_append r.toList] at hnodup
  exact hcollect.trans (putAll_of_nodup hnodup)

/-- **Edited registries are ordered lists of records.** After any run of edits of a collected
registry, the table finds the name of each record at its place and nothing else, names are distinct,
and the records and all answers given on the way are those of a plain list under the same edits. A
name is looked up as by a search from the front. So two edited registries are equal exactly when
their records are, in order, and collecting the records of one gives an equal one. -/
theorem edits_like_list (start : List ObjectRecord) (es : List Edit) :
    let r := ((ofList start).edits es).1
    Indexes r.positions r.names ∧ r.names.Nodup ∧
    (r.toList, ((ofList start).edits es).2) = Edit.run (putAll [] start) es ∧
    (∀ name, r.get? name = r.toList.find? (·.name == name) ∧
      r.contains name = r.toList.any (·.name == name)) ∧
    (∀ start' es', let s := ((ofList start').edits es').1
      (r == s) = true ↔ r.toList = s.toList) ∧
    (ofList r.toList == r) = true := by
  intro r
  have hstart : (ofList start).toList = putAll [] start := Built.empty.toList_extend start
  have h : Built r := (Built.ofList start).edits es
  refine ⟨h.indexes, h.indexes.nodup, ?_, ?_, ?_, ?_⟩
  · rw [← hstart]
    exact (Built.ofList start).edits_eq_run es
  · intro name
    exact ⟨h.get?_eq_find? name, h.contains_eq_any name⟩
  · intro start' es'
    exact h.beq_iff ((Built.ofList start').edits es')
  · exact ((Built.ofList _).beq_iff h).2 h.toList_ofList_toList

end Registry

end DataLineage
