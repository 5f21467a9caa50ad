import DataLineage.Proofs.DistinctElements
import DataLineage.Proofs.GraphParts
import DataLineage.Proofs.RegistryTables
import Mathlib.Algebra.BigOperators.Group.List.Basic
import Mathlib.Algebra.Order.Ring.Nat

/-!
# The edges of a registry's graph

Which edges a registry's graph has, record by record: one for each distinct name that names a
record, then the one from the default source where the record names no source. Ids do not come into
it, since the ids of two records are never the same.

* `References.found_ofNames`, `References.size_found_add_missing`: what the names of a record come
  to.
* `EdgeList.links_ofRegistry`: the edges drawn up record by record.
* `BuildOptions.nodup_ends`: no two of them have the same ends.
* `Graph.edges_ofRegistry`: the statement for the graph.
-/

namespace DataLineage

variable {o : BuildOptions} {r : Registry} {p q d : ObjectRecord}

/-! ## The rule -/

namespace BuildOptions

/-- The record of a name. -/
def named? (records : List ObjectRecord) (name : String) : Option ObjectRecord :=
  records.find? fun p => p.name == name

/-- What an edge between the nodes of two records says. -/
def link (o : BuildOptions) (source target : ObjectRecord) (kind : EdgeKind) :
    String × String × EdgeKind :=
  (o.idScheme.nodeId source, o.idScheme.nodeId target, kind)

/-- A link for each distinct name that names a record, in the order in which the names first come. -/
def explicitLinks (o : BuildOptions) (records : List ObjectRecord) (p : ObjectRecord) :
    List (String × String × EdgeKind) :=
  p.dependsOn.eraseDups.filterMap fun name =>
    (named? records name).map fun q => o.link q p .explicit

/-- The link from the configured default source, when that is a source and the record is of a type
that reads it and names no source itself. -/
def inferredLinks (o : BuildOptions) (records : List ObjectRecord) (p : ObjectRecord) :
    List (String × String × EdgeKind) :=
  match o.defaultSource.bind (named? records) with
  | some d =>
    if d.type = .source ∧ p.type.infersDefaultSource ∧
        ∀ name ∈ p.dependsOn, ∀ q ∈ named? records name, q.type ≠ .source then
      [o.link d p .inferred]
    else []
  | none => []

/-- The links into the records, record by record. -/
def links (o : BuildOptions) (records : List ObjectRecord) : List (String × String × EdgeKind) :=
  records.flatMap fun p => o.explicitLinks records p ++ o.inferredLinks records p

end BuildOptions

open BuildOptions (named?)

theorem Registry.Built.get?_eq_named? (h : r.Built) : r.get? = named? r.toList := by
  funext name
  exact h.get?_eq_find? name

/-! ## Ids of records -/

theorem ObjectType.colon_notMem_tag (t : ObjectType) : ':' ∉ t.tag.toList := by
  cases t <;> decide

/-- What follows the first colon of a typed id is the name. -/
theorem ObjectType.dropWhile_tag (t : ObjectType) (name : List Char) :
    (t.tag.toList ++ ':' :: name).dropWhile (· != ':') = ':' :: name := by
  rw [List.dropWhile_append_of_pos]
  · exact List.dropWhile_cons_of_neg (by simp)
  · intro c hc
    rw [bne_iff_ne]
    rintro rfl
    exact t.colon_notMem_tag hc

/-- Two names have two ids, whatever their types. -/
theorem IdScheme.name_eq_of_nodeId_eq {scheme : IdScheme}
    (h : scheme.nodeId p = scheme.nodeId q) : p.name = q.name := by
  cases scheme with
  | name => exact h
  | typed =>
    have hl : p.type.tag.toList ++ ':' :: p.name.toList =
        q.type.tag.toList ++ ':' :: q.name.toList := by
      simpa [nodeId] using congrArg String.toList h
    have hdrop := congrArg (List.dropWhile (· != ':')) hl
    rw [ObjectType.dropWhile_tag, ObjectType.dropWhile_tag] at hdrop
    exact String.toList_inj.1 (List.cons.inj hdrop).2

/-- Records of a registry with one id are one record. -/
theorem Registry.Built.eq_of_nodeId_eq (h : r.Built) {scheme : IdScheme} (hp : p ∈ r.toList)
    (hq : q ∈ r.toList) (hid : scheme.nodeId p = scheme.nodeId q) : p = q :=
  h.eq_of_name_eq hp hq (IdScheme.name_eq_of_nodeId_eq hid)

/-! ## The names of one record -/

namespace References

theorem ofNames_concat (r : Registry) (names : List String) (name : String) :
    ofNames r (names ++ [name]) = add r (ofNames r names) name := by
  rw [ofNames, List.foldl_append]
  rfl

theorem add_of_mem {refs : References} {name : String} (h : name ∈ refs.seen) :
    add r refs name = refs := by
  rw [add, if_pos (Std.TreeSet.contains_iff_mem.2 h)]

theorem seen_add_of_notMem {refs : References} {name : String} (h : name ∉ refs.seen) :
    (add r refs name).seen = refs.seen.insert name := by
  rw [add, if_neg (Std.TreeSet.contains_iff_mem.not.2 h)]
  cases r.get? name <;> rfl

theorem found_add_of_notMem {refs : References} {name : String} (h : name ∉ refs.seen) :
    (add r refs name).found.toList = refs.found.toList ++ (r.get? name).toList := by
  rw [add, if_neg (Std.TreeSet.contains_iff_mem.not.2 h)]
  cases r.get? name <;> simp

theorem mem_seen_ofNames (r : Registry) (names : List String) {name : String} :
    name ∈ (ofNames r names).seen ↔ name ∈ names := by
  induction names using List.reverseRecOn with
  | nil => simp [ofNames]
  | append_singleton names last ih =>
    rw [ofNames_concat, List.mem_append, List.mem_singleton]
    by_cases hlast : last ∈ (ofNames r names).seen
    · rw [add_of_mem hlast, ih]
      constructor
      · exact Or.inl
      · rintro (hmem | rfl)
        · exact hmem
        · exact ih.1 hlast
    · rw [seen_add_of_notMem hlast, Std.TreeSet.mem_insert, Std.LawfulEqCmp.compare_eq_iff_eq, ih]
      tauto

/-- **The records found** are those of the distinct names, in the order in which the names first
come. -/
theorem found_ofNames (r : Registry) (names : List String) :
    (ofNames r names).found.toList = names.eraseDups.filterMap r.get? := by
  induction names using List.reverseRecOn with
  | nil => simp [ofNames]
  | append_singleton names name ih =>
    have hseen : name ∈ (ofNames r names).seen ↔ name ∈ names := mem_seen_ofNames r names
    rw [ofNames_concat, eraseDups_concat]
    by_cases hmem : name ∈ names
    · rw [add_of_mem (hseen.2 hmem), if_pos hmem, List.append_nil, ih]
    · rw [found_add_of_notMem (hseen.not.2 hmem), if_neg hmem, List.filterMap_append, ih]
      cases hget : r.get? name <;> simp [hget]

/-- **Each distinct name is found or missing**, and counted once. -/
theorem size_found_add_missing (r : Registry) (names : List String) :
    (ofNames r names).found.size + (ofNames r names).missing = names.eraseDups.length := by
  have hperm : (ofNames r names).seen.toList.Perm names.eraseDups := by
    refine (List.perm_ext_iff_of_nodup ?_ (nodup_eraseDups names)).2 ?_
    · refine Std.TreeSet.distinct_toList.imp ?_
      intro a b hab
      exact fun heq => hab (Std.LawfulEqCmp.compare_eq_iff_eq.2 heq)
    · intro name
      rw [Std.TreeSet.mem_toList, mem_seen_ofNames, List.mem_eraseDups]
  rw [size_ofNames, ← Std.TreeSet.length_toList, hperm.length_eq]

/-- The records found include a source exactly when one of the names is that of a source. -/
theorem readsSource_ofNames (r : Registry) (names : List String) :
    (ofNames r names).readsSource ↔ ∃ name ∈ names, ∃ q ∈ r.get? name, q.type = .source := by
  rw [readsSource, ← Array.any_toList, found_ofNames, List.any_eq_true]
  simp only [List.mem_filterMap, List.mem_eraseDups, beq_iff_eq, Option.mem_def]
  constructor
  · rintro ⟨q, ⟨name, hname, hq⟩, hsource⟩
    exact ⟨name, hname, q, hq, hsource⟩
  · rintro ⟨name, hname, q, hq, hsource⟩
    exact ⟨q, ⟨name, hname, hq⟩, hsource⟩

end References

/-! ## Record by record -/

namespace EdgeList

theorem readsSource_iff (h : r.Built) (p : ObjectRecord) :
    (References.ofNames r p.dependsOn).readsSource = false ↔
      ∀ name ∈ p.dependsOn, ∀ q ∈ named? r.toList name, q.type ≠ .source := by
  rw [← Bool.not_eq_true, References.readsSource_ofNames, h.get?_eq_named?]
  push Not
  rfl

/-- The source that a record would read by default is another record. -/
theorem name_ne_of_infers (h : r.Built) (hp : p ∈ r.toList) (hd : d ∈ r.toList)
    (hsource : d.type = .source) (hinfers : p.type.infersDefaultSource) : d.name ≠ p.name := by
  intro hname
  rw [← h.eq_of_name_eq hd hp hname, hsource] at hinfers
  exact absurd hinfers (by decide)

theorem mem_of_bind_named? {name? : Option String} {records : List ObjectRecord}
    (hd : name?.bind (named? records) = some d) : d ∈ records := by
  obtain ⟨name, -, hname⟩ := Option.bind_eq_some_iff.1 hd
  exact List.mem_of_find?_eq_some hname

/-- The inferred edge of a record, by the rule. -/
theorem links_inferredEdge? (h : r.Built) (hp : p ∈ r.toList) :
    (o.inferredEdge? r p (References.ofNames r p.dependsOn)).toList.map Edge.link =
      o.inferredLinks r.toList p := by
  have hnames := readsSource_iff h p
  rw [BuildOptions.inferredEdge?, BuildOptions.inferredLinks, BuildOptions.defaultSourceIn?,
    h.get?_eq_named?]
  cases hd : o.defaultSource.bind (named? r.toList) with
  | none => rfl
  | some d =>
    by_cases hsource : d.type = .source
    · have hkeep : (some d).filter (fun q : ObjectRecord => q.type == .source) = some d := by
        simp [hsource]
      rw [hkeep]
      simp only [hsource, true_and, ← hnames, Bool.and_eq_true, Bool.not_eq_true', bne_iff_ne]
      by_cases hrule : p.type.infersDefaultSource = true ∧
          (References.ofNames r p.dependsOn).readsSource = false
      · have hne := name_ne_of_infers h hp (mem_of_bind_named? hd) hsource hrule.1
        rw [if_pos ⟨hrule, hne⟩, if_pos hrule]
        rfl
      · rw [if_neg fun hall => hrule hall.1, if_neg hrule]
        rfl
    · have hdrop : (some d).filter (fun q : ObjectRecord => q.type == .source) = none := by
        simp [hsource]
      rw [hdrop]
      simp only [hsource, false_and, if_false]
      rfl

/-- The explicit edges of a record, by the rule. -/
theorem links_found (h : r.Built) (p : ObjectRecord) :
    (References.ofNames r p.dependsOn).found.toList.map (fun q => (o.edge q p .explicit).link) =
      o.explicitLinks r.toList p := by
  rw [References.found_ofNames, h.get?_eq_named?, List.map_filterMap]
  rfl

/-- The edges into one record. -/
theorem links_addRecord (h : r.Built) (hp : p ∈ r.toList) (list : EdgeList) :
    (addRecord o r list p).edges.toList.map Edge.link =
      list.edges.toList.map Edge.link ++
        (o.explicitLinks r.toList p ++ o.inferredLinks r.toList p) := by
  rw [addRecord]
  simp only [Array.toList_append, Array.toList_map, List.map_append, List.map_map,
    List.append_assoc]
  rw [← links_found h, ← links_inferredEdge? h hp]
  cases o.inferredEdge? r p (References.ofNames r p.dependsOn) <;> rfl

/-- **The edges drawn up for a registry**, record by record. -/
theorem links_ofRegistry (h : r.Built) :
    (ofRegistry o r).edges.toList.map Edge.link = o.links r.toList := by
  suffices hall : ∀ (ps : List ObjectRecord) (list : EdgeList), (∀ p ∈ ps, p ∈ r.toList) →
      (ps.foldl (addRecord o r) list).edges.toList.map Edge.link =
        list.edges.toList.map Edge.link ++
          ps.flatMap fun p => o.explicitLinks r.toList p ++ o.inferredLinks r.toList p by
    simpa [BuildOptions.links, ofRegistry] using hall r.toList {} fun _ hp => hp
  intro ps
  induction ps with
  | nil => simp
  | cons p ps ih =>
    intro list hps
    rw [List.foldl_cons, ih _ fun q hq => hps q (List.mem_cons_of_mem p hq),
      links_addRecord h (hps p List.mem_cons_self), List.flatMap_cons, List.append_assoc]

/-- Names without a record are counted record by record. -/
theorem dropped_ofRegistry (o : BuildOptions) (r : Registry) :
    (ofRegistry o r).dropped =
      (r.toList.map fun p => (References.ofNames r p.dependsOn).missing).sum := by
  suffices hall : ∀ (ps : List ObjectRecord) (list : EdgeList),
      (ps.foldl (addRecord o r) list).dropped =
        list.dropped + (ps.map fun p => (References.ofNames r p.dependsOn).missing).sum by
    simpa [ofRegistry] using hall r.toList {}
  intro ps
  induction ps with
  | nil => simp
  | cons p ps ih =>
    intro list
    rw [List.foldl_cons, ih, addRecord, List.map_cons, List.sum_cons, Nat.add_assoc]

end EdgeList

/-! ## Distinct ends -/

namespace BuildOptions

theorem mem_of_named? {records : List ObjectRecord} {name : String}
    (hq : named? records name = some q) : q ∈ records ∧ q.name = name :=
  ⟨List.mem_of_find?_eq_some hq, by simpa using List.find?_some hq⟩

/-- Either a record has no inferred link, or it has one from a source that it does not name. -/
theorem inferredLinks_cases (o : BuildOptions) (records : List ObjectRecord) (p : ObjectRecord) :
    o.inferredLinks records p = [] ∨
      ∃ d ∈ records, o.inferredLinks records p = [o.link d p .inferred] ∧
        ∀ name ∈ p.dependsOn, named? records name ≠ some d := by
  unfold inferredLinks
  split
  next d hd =>
    split
    next hrule =>
      refine Or.inr ⟨d, EdgeList.mem_of_bind_named? hd, rfl, ?_⟩
      intro name hname hnamed
      exact hrule.2.2 name hname d hnamed hrule.1
    next => exact Or.inl rfl
  next => exact Or.inl rfl

/-- The ends of a link. -/
def ends (l : String × String × EdgeKind) : String × String := (l.1, l.2.1)

theorem mem_explicitLinks {records : List ObjectRecord} {l : String × String × EdgeKind}
    (hl : l ∈ o.explicitLinks records p) :
    ∃ name ∈ p.dependsOn, ∃ q, named? records name = some q ∧ l = o.link q p .explicit := by
  obtain ⟨name, hname, hl⟩ := List.mem_filterMap.1 hl
  obtain ⟨q, hq, rfl⟩ := Option.map_eq_some_iff.1 hl
  exact ⟨name, List.mem_eraseDups.1 hname, q, hq, rfl⟩

/-- Two links into one record come from different records. -/
theorem nodup_ends_record (h : r.Built) (p : ObjectRecord) :
    ((o.explicitLinks r.toList p ++ o.inferredLinks r.toList p).map ends).Nodup := by
  have hexplicit : ((o.explicitLinks r.toList p).map ends).Nodup := by
    rw [explicitLinks, List.map_filterMap]
    refine (nodup_eraseDups p.dependsOn).filterMap ?_
    intro name name' l hl hl'
    simp only [Option.mem_def, Option.map_eq_some_iff] at hl hl'
    obtain ⟨_, ⟨q, hq, rfl⟩, rfl⟩ := hl
    obtain ⟨_, ⟨q', hq', rfl⟩, hends⟩ := hl'
    obtain ⟨hmem, hname⟩ := mem_of_named? hq
    obtain ⟨hmem', hname'⟩ := mem_of_named? hq'
    rw [← hname, ← hname', h.eq_of_nodeId_eq hmem' hmem (Prod.mk.inj hends).1]
  rcases inferredLinks_cases o r.toList p with hnil | ⟨d, hd, hone, hnot⟩
  · rwa [hnil, List.append_nil]
  · rw [hone, List.map_append, List.nodup_append]
    refine ⟨hexplicit, List.nodup_singleton _, ?_⟩
    intro l hl l' hl' heq
    obtain ⟨l, hmem, rfl⟩ := List.mem_map.1 hl
    obtain rfl := List.mem_singleton.1 hl'
    obtain ⟨name, hname, q, hq, rfl⟩ := mem_explicitLinks hmem
    -- the record would be the default source, which none of the names is that of
    have hqd : q = d := h.eq_of_nodeId_eq (mem_of_named? hq).1 hd (Prod.mk.inj heq).1
    rw [hqd] at hq
    exact hnot name hname hq

theorem ends_of_mem {records : List ObjectRecord} {l : String × String × EdgeKind}
    (hl : l ∈ o.explicitLinks records p ++ o.inferredLinks records p) :
    (∃ q ∈ records, l.1 = o.idScheme.nodeId q) ∧ l.2.1 = o.idScheme.nodeId p := by
  rcases List.mem_append.1 hl with hl | hl
  · obtain ⟨name, -, q, hq, rfl⟩ := mem_explicitLinks hl
    exact ⟨⟨q, (mem_of_named? hq).1, rfl⟩, rfl⟩
  · rcases inferredLinks_cases o records p with hnil | ⟨d, hd, hone, -⟩
    · rw [hnil] at hl
      cases hl
    · rw [hone, List.mem_singleton] at hl
      subst hl
      exact ⟨⟨d, hd, rfl⟩, rfl⟩

/-- **No two links have the same ends.** -/
theorem nodup_ends (o : BuildOptions) (h : r.Built) : ((o.links r.toList).map ends).Nodup := by
  rw [links, List.map_flatMap, List.nodup_flatMap]
  refine ⟨fun p _ => nodup_ends_record h p, ?_⟩
  have hnames : r.toList.Pairwise fun p q => p.name ≠ q.name := List.pairwise_map.1 h.nodup_names
  refine hnames.imp ?_
  intro p q hpq x hx hx'
  obtain ⟨l, hl, rfl⟩ := List.mem_map.1 hx
  obtain ⟨l', hl', heq⟩ := List.mem_map.1 hx'
  -- links with one target lead into one record
  have htarget : l'.2.1 = l.2.1 := (Prod.mk.inj heq).2
  rw [(ends_of_mem hl).2, (ends_of_mem hl').2] at htarget
  exact hpq (IdScheme.name_eq_of_nodeId_eq htarget).symm

end BuildOptions

namespace EdgeList

variable {e : Edge}

/-- An edge drawn up for a registry joins the nodes of two records. -/
theorem exists_records_of_mem (h : r.Built) (he : e ∈ (ofRegistry o r).edges.toList) :
    ∃ q ∈ r.toList, ∃ p ∈ r.toList,
      e.source = o.idScheme.nodeId q ∧ e.target = o.idScheme.nodeId p := by
  have hlink : e.link ∈ o.links r.toList := by
    rw [← links_ofRegistry h]
    exact List.mem_map_of_mem he
  obtain ⟨p, hp, hlink⟩ := List.mem_flatMap.1 hlink
  obtain ⟨⟨q, hq, hsource⟩, htarget⟩ := BuildOptions.ends_of_mem hlink
  exact ⟨q, hq, p, hp, hsource, htarget⟩

theorem within_ofRegistry (h : r.Built) (he : e ∈ (ofRegistry o r).edges.toList) :
    Graph.Within ((r.toList.map o.node).map Node.id) e := by
  obtain ⟨q, hq, p, hp, hsource, htarget⟩ := exists_records_of_mem h he
  rw [Graph.Within, hsource, htarget, List.map_map]
  exact ⟨List.mem_map.2 ⟨q, hq, rfl⟩, List.mem_map.2 ⟨p, hp, rfl⟩⟩

end EdgeList

namespace Graph

open BuildOptions (ends links)

/-- **None of the edges drawn up is left out of the graph.** -/
theorem links_eq_of_built (o : BuildOptions) (h : r.Built) :
    (ofRegistry o r).edges.toList.map Edge.link =
      (EdgeList.ofRegistry o r).edges.toList.map Edge.link := by
  rw [ofRegistry, BuiltGraph.ofRegistry, links_ofParts, List.filter_eq_self.2]
  intro e he
  exact decide_eq_true (EdgeList.within_ofRegistry h he)

/-- Of the links into a record the explicit ones come from the distinct names that are found. -/
theorem countP_explicit (h : r.Built) (p : ObjectRecord) :
    (o.explicitLinks r.toList p ++ o.inferredLinks r.toList p).countP (·.2.2 = .explicit) =
      (References.ofNames r p.dependsOn).found.size := by
  have hexplicit : (o.explicitLinks r.toList p).countP (·.2.2 = .explicit) =
      (o.explicitLinks r.toList p).length := by
    rw [List.countP_eq_length]
    intro l hl
    obtain ⟨-, -, q, -, rfl⟩ := BuildOptions.mem_explicitLinks hl
    exact decide_eq_true rfl
  have hinferred : (o.inferredLinks r.toList p).countP (·.2.2 = .explicit) = 0 := by
    rcases BuildOptions.inferredLinks_cases o r.toList p with hnil | ⟨d, -, hone, -⟩
    · rw [hnil]
      rfl
    · rw [hone]
      rfl
  rw [List.countP_append, hexplicit, hinferred, Nat.add_zero, ← EdgeList.links_found h,
    List.length_map, Array.length_toList]

/-- **Each distinct name of a record is an explicit edge or a dropped reference.** -/
theorem explicit_add_dropped (o : BuildOptions) (h : r.Built) :
    (ofRegistry o r).edges.toList.countP (·.kind = .explicit) +
        (BuiltGraph.ofRegistry o r).dropped =
      (r.toList.map fun p => p.dependsOn.eraseDups.length).sum := by
  have hcount : (ofRegistry o r).edges.toList.countP (·.kind = .explicit) =
      ((ofRegistry o r).edges.toList.map Edge.link).countP (·.2.2 = .explicit) := by
    rw [List.countP_map]
    rfl
  have hdropped : (BuiltGraph.ofRegistry o r).dropped = (EdgeList.ofRegistry o r).dropped := rfl
  rw [hcount, links_eq_of_built o h, EdgeList.links_ofRegistry h, links, List.countP_flatMap,
    hdropped, EdgeList.dropped_ofRegistry, ← List.sum_map_add]
  congr 1
  refine List.map_congr_left ?_
  intro p hp
  rw [← References.size_found_add_missing r, Function.comp_apply, countP_explicit h]

/-- **The edges of a registry's graph.** Record by record, in order: an explicit edge from each
distinct name that names a record, in the order in which the names first come, then the inferred
edge where the configured default source is a source, the type of the record reads it and none of
the record's names is that of a source. No two edges have the same ends, the graph leaves none of
the edges drawn up for it out, and each distinct name of a record is an explicit edge or is counted
as dropped. -/
theorem edges_ofRegistry (o : BuildOptions) (r : Registry) (h : r.Built) :
    let g := ofRegistry o r
    g.edges.toList.map Edge.link =
      (r.toList.flatMap fun p => o.explicitLinks r.toList p ++ o.inferredLinks r.toList p) ∧
    (g.edges.toList.map fun e => (e.source, e.target)).Nodup ∧
    g.edges.toList.map Edge.link = (EdgeList.ofRegistry o r).edges.toList.map Edge.link ∧
    g.edges.toList.countP (·.kind = .explicit) + (BuiltGraph.ofRegistry o r).dropped =
      (r.toList.map fun p => p.dependsOn.eraseDups.length).sum := by
  intro g
  have hlinks : g.edges.toList.map Edge.link = o.links r.toList :=
    (links_eq_of_built o h).trans (EdgeList.links_ofRegistry h)
  refine ⟨hlinks, ?_, links_eq_of_built o h, explicit_add_dropped o h⟩
  have hends := BuildOptions.nodup_ends o h
  rw [← hlinks, List.map_map] at hends
  exact hends

/-- A project with a source read by default, one read by name, names that come twice, a name
without a record and a model that reads itself. -/
theorem edges_ofRegistry_of_project :
    let r := Registry.ofList [⟨"db", .source, []⟩, ⟨"lake", .source, ["x"]⟩,
      ⟨"a", .model, ["a", "x", "a"]⟩, ⟨"b", .model, ["a", "lake", "a"]⟩, ⟨"c", .chart, ["b"]⟩]
    let o : BuildOptions := ⟨.typed, some "db"⟩
    let g := ofRegistry o r
    r.Built ∧
    (g.edges.toList.map Edge.link =
      (r.toList.flatMap fun p => o.explicitLinks r.toList p ++ o.inferredLinks r.toList p) ∧
    (g.edges.toList.map fun e => (e.source, e.target)).Nodup ∧
    g.edges.toList.map Edge.link = (EdgeList.ofRegistry o r).edges.toList.map Edge.link ∧
    g.edges.toList.countP (·.kind = .explicit) + (BuiltGraph.ofRegistry o r).dropped =
      (r.toList.map fun p => p.dependsOn.eraseDups.length).sum) ∧
    g.edges.toList.map Edge.link =
      [("model:a", "model:a", .explicit), ("source:db", "model:a", .inferred),
        ("model:a", "model:b", .explicit), ("source:lake", "model:b", .explicit),
        ("model:b", "chart:c", .explicit)] ∧
    (BuiltGraph.ofRegistry o r).dropped = 2 := by
  intro r o g
  have hbuilt : r.Built := Registry.Built.ofList _
  exact ⟨hbuilt, edges_ofRegistry o r hbuilt, by decide +kernel, by decide +kernel⟩

end Graph

end DataLineage
