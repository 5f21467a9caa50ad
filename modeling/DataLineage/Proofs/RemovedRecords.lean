import DataLineage.Proofs.RegistryEdits
import DataLineage.Proofs.RegistryNodes

/-!
# A record less

A record that is removed leaves its name behind in the records that read it, where it now names
nothing. So the graph of the other records is the part of the graph without the node of the record.
This does not go for sources: a model that reads one by name no more would get an edge from the
default source instead.

* `Registry.Built.toList_remove`: what a removal leaves.
* `BuildOptions.links_others`: the links that are left are those with other ends.
* `Graph.ofRegistry_remove`: the statement.
-/

namespace DataLineage

open BuildOptions (named?)

variable {o : BuildOptions} {r : Registry} {p q : ObjectRecord} {records : List ObjectRecord}

/-- The records of other names. -/
def others (name : String) (records : List ObjectRecord) : List ObjectRecord :=
  records.filter fun q => q.name ≠ name

theorem RecordList.take_of_nodup {name : String} (h : (records.map ObjectRecord.name).Nodup) :
    (take name records).1 = others name records := by
  induction records with
  | nil => rfl
  | cons p records ih =>
    rw [List.map_cons, List.nodup_cons] at h
    rw [take, others, List.filter_cons]
    by_cases hp : p.name = name
    · -- no other record has the name
      have hrest : records.filter (fun q => q.name ≠ name) = records := by
        rw [List.filter_eq_self]
        intro q hq
        rw [decide_eq_true_eq]
        rintro rfl
        exact h.1 (hp ▸ List.mem_map_of_mem hq)
      simp only [hp, if_true, ne_eq, not_true, decide_false, hrest]
      rfl
    · simp only [hp, if_false, ne_eq, not_false_iff, decide_true, if_true, ih h.2]
      rfl

/-- **A removal leaves the records of other names**, in order. -/
theorem Registry.Built.toList_remove (h : r.Built) (name : String) :
    (r.remove name).1.toList = others name r.toList := by
  have htake : (r.remove name).1.toList = (RecordList.take name r.toList).1 :=
    congrArg Prod.fst (h.remove_eq_take name)
  rw [htake, RecordList.take_of_nodup h.nodup_names]

namespace BuildOptions

/-- Among the other records the name names nothing, and every other name what it did. -/
theorem named?_others (records : List ObjectRecord) (name name' : String) :
    named? (others name records) name' =
      (named? records name').filter fun q => q.name ≠ name := by
  have hsearch : named? (others name records) name' =
      records.find? fun q => q.name ≠ name ∧ q.name = name' := by
    simp only [named?, others, List.find?_filter, decide_eq_true_eq, beq_iff_eq]
  rw [hsearch]
  cases hnamed : named? records name' with
  | none =>
    rw [Option.filter_none, List.find?_eq_none]
    intro q hq hand
    have hnot := List.find?_eq_none.1 hnamed q hq
    simp_all
  | some q =>
    obtain ⟨-, rfl⟩ := mem_of_named? hnamed
    rw [Option.filter_some]
    by_cases hq : q.name = name
    · rw [if_neg (by simpa using hq), List.find?_eq_none]
      simp_all
    · rw [if_pos (by simpa using hq), ← hnamed, named?]
      congr 1
      funext d
      by_cases hd : d.name = q.name <;> simp_all

/-- A link between other nodes than one. -/
def Spares (id : String) (l : String × String × EdgeKind) : Prop := l.1 ≠ id ∧ l.2.1 ≠ id

instance (id : String) : DecidablePred (Spares id) := fun _ => instDecidableAnd

theorem nodeId_eq_iff (h : r.Built) (hp : p ∈ r.toList) (hq : q ∈ r.toList) :
    o.idScheme.nodeId q = o.idScheme.nodeId p ↔ q.name = p.name := by
  constructor
  · exact IdScheme.name_eq_of_nodeId_eq
  · intro hname
    rw [h.eq_of_name_eq hq hp hname]

/-- A link between two records is spared when they both are others. -/
theorem spares_link_iff {d : ObjectRecord} {kind : EdgeKind} (h : r.Built) (hp : p ∈ r.toList)
    (hd : d ∈ r.toList) (hq : q ∈ r.toList) :
    Spares (o.idScheme.nodeId p) (o.link d q kind) ↔ d.name ≠ p.name ∧ q.name ≠ p.name := by
  rw [Spares, link, ne_eq, ne_eq, nodeId_eq_iff h hp hd, nodeId_eq_iff h hp hq]

/-- The explicit links into another record are left, but for that from the record itself. -/
theorem explicitLinks_others (h : r.Built) (hp : p ∈ r.toList) (hq : q ∈ r.toList)
    (hqp : q.name ≠ p.name) :
    o.explicitLinks (others p.name r.toList) q =
      (o.explicitLinks r.toList q).filter (Spares (o.idScheme.nodeId p)) := by
  rw [explicitLinks, explicitLinks, List.filter_filterMap]
  refine List.filterMap_congr fun name _ => ?_
  rw [named?_others]
  cases hnamed : named? r.toList name with
  | none => rfl
  | some d =>
    have hspares : Spares (o.idScheme.nodeId p) (o.link d q .explicit) ↔ d.name ≠ p.name :=
      (spares_link_iff h hp (mem_of_named? hnamed).1 hq).trans (and_iff_left hqp)
    by_cases hdp : d.name = p.name <;> simp [Option.filter_some, hspares, hdp]

/-- Whether a record names a source does not hang on a record that is none. -/
theorem names_no_source_others (h : r.Built) (hp : p ∈ r.toList) (hsource : p.type ≠ .source) :
    (∀ name ∈ q.dependsOn, ∀ d ∈ named? (others p.name r.toList) name, d.type ≠ .source) ↔
      ∀ name ∈ q.dependsOn, ∀ d ∈ named? r.toList name, d.type ≠ .source := by
  refine forall₂_congr fun name _ => ?_
  rw [named?_others]
  cases hnamed : named? r.toList name with
  | none => rfl
  | some d =>
    by_cases hdp : d.name = p.name
    · -- what no longer is named was no source
      have hself : d = p := h.eq_of_name_eq (mem_of_named? hnamed).1 hp hdp
      simp [Option.filter_some, hself, hsource]
    · simp [Option.filter_some, hdp]

/-- The inferred link into another record is left, since it does not come from the record. -/
theorem inferredLinks_others (h : r.Built) (hp : p ∈ r.toList) (hsource : p.type ≠ .source)
    (hq : q ∈ r.toList) (hqp : q.name ≠ p.name) :
    o.inferredLinks (others p.name r.toList) q =
      (o.inferredLinks r.toList q).filter (Spares (o.idScheme.nodeId p)) := by
  have hdefault : o.defaultSource.bind (named? (others p.name r.toList)) =
      (o.defaultSource.bind (named? r.toList)).filter fun d => d.name ≠ p.name := by
    cases o.defaultSource with
    | none => rfl
    | some name => exact named?_others r.toList p.name name
  rw [inferredLinks, inferredLinks, hdefault]
  simp only [names_no_source_others h hp hsource]
  cases hd : o.defaultSource.bind (named? r.toList) with
  | none => rfl
  | some d =>
    have hmem : d ∈ r.toList := EdgeList.mem_of_bind_named? hd
    by_cases hdp : d.name = p.name
    · have hself : d = p := h.eq_of_name_eq hmem hp hdp
      simp [Option.filter_some, hself, hsource]
    · have hspares : Spares (o.idScheme.nodeId p) (o.link d q .inferred) :=
        (spares_link_iff h hp hmem hq).2 ⟨hdp, hqp⟩
      simp only [ne_eq, hdp, not_false_iff, decide_true, Option.filter_some, if_true]
      split_ifs
      · simp [hspares]
      · rfl

theorem flatMap_others {α : Type} (name : String) (records : List ObjectRecord)
    (f : ObjectRecord → List α) :
    (others name records).flatMap f =
      records.flatMap fun q => if q.name ≠ name then f q else [] := by
  induction records with
  | nil => rfl
  | cons q records ih =>
    rw [others, List.filter_cons]
    by_cases hq : q.name = name <;> simp_all [others]

/-- **The links that are left are those between other nodes**, in order. -/
theorem links_others (h : r.Built) (hp : p ∈ r.toList) (hsource : p.type ≠ .source) :
    o.links (others p.name r.toList) =
      (o.links r.toList).filter (Spares (o.idScheme.nodeId p)) := by
  have hrecord : ∀ q ∈ r.toList,
      (o.explicitLinks r.toList q ++ o.inferredLinks r.toList q).filter
          (Spares (o.idScheme.nodeId p)) =
        if q.name ≠ p.name then
          o.explicitLinks (others p.name r.toList) q ++ o.inferredLinks (others p.name r.toList) q
        else [] := by
    intro q hq
    by_cases hqp : q.name = p.name
    · -- every link made for the record leads into it
      rw [if_neg (not_not.2 hqp), List.filter_eq_nil_iff]
      intro l hl
      rw [decide_eq_true_eq]
      rintro ⟨-, htarget⟩
      rw [(ends_of_mem hl).2] at htarget
      exact htarget ((nodeId_eq_iff h hp hq).2 hqp)
    · rw [if_pos hqp, List.filter_append, explicitLinks_others h hp hq hqp,
        inferredLinks_others h hp hsource hq hqp]
  rw [links, links, List.filter_flatMap, List.flatMap_congr hrecord, flatMap_others]

end BuildOptions

namespace Graph

/-- **Removing a record and building the graph** gives what building the graph and leaving out the
node of the record gives, for a record that is no source: the same nodes and, by their ends and
kinds, the same edges, in the same order. -/
theorem ofRegistry_remove (o : BuildOptions) (h : r.Built) (hp : p ∈ r.toList)
    (hsource : p.type ≠ .source) :
    let g := ofRegistry o r
    let ids := (Std.TreeSet.ofList g.nodeIds).erase (o.idScheme.nodeId p)
    (ofRegistry o (r.remove p.name).1).nodes = (g.restrict ids.contains).nodes ∧
    (ofRegistry o (r.remove p.name).1).edges.toList.map Edge.link =
      (g.restrict ids.contains).edges.toList.map Edge.link := by
  intro g ids
  have hg : g.Consistent := consistent_ofParts _ _
  have hleft : (r.remove p.name).1.Built := h.remove p.name
  have hids : ∀ id ∈ g.nodeIds, ids.contains id ↔ id ≠ o.idScheme.nodeId p := by
    intro id hid
    rw [Std.TreeSet.contains_iff_mem, Std.TreeSet.mem_erase, Std.TreeSet.mem_ofList,
      List.contains_iff_mem, ne_eq, Std.LawfulEqCmp.compare_eq_iff_eq, eq_comm]
    exact and_iff_left hid
  constructor
  · rw [← Array.toList_inj, nodes_ofRegistry hleft, h.toList_remove, hg.nodes_restrict,
      nodes_ofRegistry h, List.filter_map]
    congr 1
    refine List.filter_congr fun q hq => ?_
    have hid : o.idScheme.nodeId q ∈ g.nodeIds := by
      rw [nodeIds_ofRegistry h]
      exact List.mem_map_of_mem hq
    rw [Bool.eq_iff_iff, decide_eq_true_eq, ne_eq, ← BuildOptions.nodeId_eq_iff h hp hq]
    exact (hids _ hid).symm
  · have hends : ∀ e ∈ g.edges.toList, (ids.contains e.source && ids.contains e.target) =
        decide (BuildOptions.Spares (o.idScheme.nodeId p) e.link) := by
      intro e he
      obtain ⟨hs, ht⟩ := hg.ends e (Array.mem_toList_iff.1 he)
      rw [Bool.eq_iff_iff, Bool.and_eq_true, hids _ hs, hids _ ht, decide_eq_true_eq]
      rfl
    rw [links_ofRegistry hleft, h.toList_remove, BuildOptions.links_others h hp hsource,
      ← links_ofRegistry h, hg.edges_restrict, List.filter_congr hends, List.filter_map]
    rfl

/-- A chart that reads a removed model, and a model that names a source beside it. -/
theorem ofRegistry_remove_of_project :
    let r := Registry.ofList [⟨"db", .source, []⟩, ⟨"lake", .source, []⟩,
      ⟨"a", .model, ["lake", "a"]⟩, ⟨"b", .model, ["a"]⟩, ⟨"c", .model, ["a", "lake"]⟩,
      ⟨"d", .chart, ["b", "a", "c"]⟩]
    let p : ObjectRecord := ⟨"a", .model, ["lake", "a"]⟩
    let o : BuildOptions := ⟨.typed, some "db"⟩
    let g := ofRegistry o r
    let ids := (Std.TreeSet.ofList g.nodeIds).erase (o.idScheme.nodeId p)
    (r.Built ∧ p ∈ r.toList ∧ p.type ≠ .source) ∧
    ((ofRegistry o (r.remove p.name).1).nodes = (g.restrict ids.contains).nodes ∧
    (ofRegistry o (r.remove p.name).1).edges.toList.map Edge.link =
      (g.restrict ids.contains).edges.toList.map Edge.link) ∧
    (ofRegistry o (r.remove p.name).1).edges.toList.map Edge.link =
      [("source:db", "model:b", .inferred), ("source:lake", "model:c", .explicit),
        ("model:b", "chart:d", .explicit), ("model:c", "chart:d", .explicit)] := by
  intro r p o g ids
  have hbuilt : r.Built := Registry.Built.ofList _
  have hp : p ∈ r.toList := by decide +kernel
  have hsource : p.type ≠ .source := by decide
  exact ⟨⟨hbuilt, hp, hsource⟩, ofRegistry_remove o hbuilt hp hsource, by decide +kernel⟩

end Graph

end DataLineage
