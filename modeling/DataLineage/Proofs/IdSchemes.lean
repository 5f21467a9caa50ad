import DataLineage.Proofs.AlikeGraphs
import DataLineage.Proofs.RegistryNodes
import DataLineage.Proofs.SelectedViews

/-!
# Schemes of node ids

A scheme decides under which ids the records of a registry are nodes, and nothing else. Whatever the
scheme, the graphs of a registry are alike, so the layout and the views are one outline, told of
records and not of ids, with the ids of the scheme put in.

* `exists_joins`: the edges as pairs of records.
* `Graph.alike_ofRegistry`: graphs of one registry are alike.
* `Lineage.follows_outline`, `Lineage.outline_congr`: a lineage follows its outline, and the outline
  does not depend on the scheme.
* `Lineage.id_scheme_only_renames`: the statement.
-/

namespace DataLineage

open BuildOptions (named?)

variable {r : Registry} {p : ObjectRecord} {g : Graph} {scheme scheme' : IdScheme}
  {source : Option String} {settings : LayoutSettings} {text : String} {i : ℕ}

/-! ## Edges as pairs of records -/

/-- An edge between two records, whatever their ids. -/
structure Join where
  source : ObjectRecord
  target : ObjectRecord
  kind : EdgeKind

/-- What an edge says under the ids of a scheme. -/
def Join.link (scheme : IdScheme) (x : Join) : String × String × EdgeKind :=
  (scheme.nodeId x.source, scheme.nodeId x.target, x.kind)

theorem exists_explicitJoins (source : Option String) (records : List ObjectRecord)
    (p : ObjectRecord) : ∃ joins : List Join, (∀ x ∈ joins, x.source ∈ records ∧ x.target = p) ∧
      ∀ scheme, (⟨scheme, source⟩ : BuildOptions).explicitLinks records p =
        joins.map (Join.link scheme) := by
  refine ⟨p.dependsOn.eraseDups.filterMap fun name =>
    (named? records name).map fun q => ⟨q, p, .explicit⟩, ?_, ?_⟩
  · intro x hx
    obtain ⟨name, -, hx⟩ := List.mem_filterMap.1 hx
    obtain ⟨q, hq, rfl⟩ := Option.map_eq_some_iff.1 hx
    exact ⟨(BuildOptions.mem_of_named? hq).1, rfl⟩
  · intro scheme
    rw [BuildOptions.explicitLinks, List.map_filterMap]
    refine List.filterMap_congr fun name _ => ?_
    rw [Option.map_map]
    rfl

theorem exists_inferredJoins (source : Option String) (records : List ObjectRecord)
    (p : ObjectRecord) : ∃ joins : List Join, (∀ x ∈ joins, x.source ∈ records ∧ x.target = p) ∧
      ∀ scheme, (⟨scheme, source⟩ : BuildOptions).inferredLinks records p =
        joins.map (Join.link scheme) := by
  simp only [BuildOptions.inferredLinks]
  cases hd : source.bind (named? records) with
  | none => exact ⟨[], by simp, fun _ => rfl⟩
  | some d =>
    by_cases hrule : d.type = .source ∧ p.type.infersDefaultSource ∧
        ∀ name ∈ p.dependsOn, ∀ q ∈ named? records name, q.type ≠ .source
    · refine ⟨[⟨d, p, .inferred⟩], ?_, fun scheme => if_pos hrule⟩
      intro x hx
      rw [List.mem_singleton.1 hx]
      exact ⟨EdgeList.mem_of_bind_named? hd, rfl⟩
    · exact ⟨[], by simp, fun scheme => if_neg hrule⟩

/-- **The edges drawn up for a registry join the same records under every scheme.** -/
theorem exists_joins (source : Option String) (records : List ObjectRecord) :
    ∃ joins : List Join, (∀ x ∈ joins, x.source ∈ records ∧ x.target ∈ records) ∧
      ∀ scheme, (⟨scheme, source⟩ : BuildOptions).links records =
        joins.map (Join.link scheme) := by
  choose explicit hexplicit hlinks using exists_explicitJoins source records
  choose inferred hinferred hlinks' using exists_inferredJoins source records
  refine ⟨records.flatMap fun p => explicit p ++ inferred p, ?_, ?_⟩
  · intro x hx
    obtain ⟨p, hp, hx⟩ := List.mem_flatMap.1 hx
    rcases List.mem_append.1 hx with hx | hx
    · obtain ⟨hsource, rfl⟩ := hexplicit p x hx
      exact ⟨hsource, hp⟩
    · obtain ⟨hsource, rfl⟩ := hinferred p x hx
      exact ⟨hsource, hp⟩
  · intro scheme
    simp only [BuildOptions.links, List.map_flatMap, List.map_append, hlinks, hlinks']

/-! ## Alike graphs of one registry -/

namespace Graph

/-- The node of a record stands at the position of the record. -/
theorem positionOf?_nodeId (h : r.Built) (hi : r.toList[i]? = some p) :
    (ofRegistry ⟨scheme, source⟩ r).positionOf? (scheme.nodeId p) = some i := by
  have hg : (ofRegistry ⟨scheme, source⟩ r).Consistent := consistent_ofParts _ _
  rw [hg.positionOf?_eq_some, nodeIds_ofRegistry h, List.getElem?_map, hi, Option.map_some]

/-- **Graphs of one registry are alike**, whatever the scheme of ids. -/
theorem alike_ofRegistry (h : r.Built) (source : Option String) (scheme scheme' : IdScheme) :
    Alike (ofRegistry ⟨scheme, source⟩ r) (ofRegistry ⟨scheme', source⟩ r) := by
  refine ⟨?names, ?joints⟩
  case names =>
    rw [nodes_ofRegistry h, nodes_ofRegistry h, List.map_map, List.map_map]
    rfl
  case joints =>
    have hpositions : ∀ p ∈ r.toList,
        (ofRegistry ⟨scheme, source⟩ r).positionOf? (scheme.nodeId p) =
          (ofRegistry ⟨scheme', source⟩ r).positionOf? (scheme'.nodeId p) := by
      intro p hp
      obtain ⟨i, hi⟩ := List.mem_iff_getElem?.1 hp
      rw [positionOf?_nodeId h hi, positionOf?_nodeId h hi]
    obtain ⟨joins, hends, hlinks⟩ := exists_joins source r.toList
    rw [joints, joints, links_ofRegistry h, links_ofRegistry h, hlinks, hlinks, List.map_map,
      List.map_map]
    refine List.map_congr_left fun x hx => ?_
    obtain ⟨hsource, htarget⟩ := hends x hx
    simp only [Function.comp_apply, linkAt, Join.link, hpositions _ hsource, hpositions _ htarget]

end Graph

/-! ## Outlines -/

/-- A record as drawn under the ids of a scheme. -/
def DrawnNode.ofRecord (scheme : IdScheme) (x : ObjectRecord × Spot) : DrawnNode :=
  ⟨scheme.nodeId x.1, x.1.name, x.1.type, x.1.type.layer, x.2.x, x.2.y⟩

/-- What a drawn edge says apart from its id. -/
def DrawnEdge.link (e : DrawnEdge) : String × String × EdgeKind := (e.source, e.target, e.kind)

/-- What a lineage and one of its views say of the records of a registry, whatever their ids. -/
structure Outline where
  joins : List Join
  /-- Where the record at each position is drawn. -/
  spots : List Spot
  sweeps : ℕ
  /-- The positions of the edges left out of the ranking. -/
  ignored : List ℕ
  /-- What the view shows of the records. -/
  shown : List (ObjectRecord × Spot)
  /-- What the view shows of the edges. -/
  joined : List Join

/-- An outline of a registry tells of its records. The view shows some of these, where they are
drawn, and some of the edges. -/
structure Outline.IsOf (x : Outline) (r : Registry) : Prop where
  ends : ∀ y ∈ x.joins, y.source ∈ r.toList ∧ y.target ∈ r.toList
  ignored : x.ignored.Sublist (List.range x.joins.length)
  shown : x.shown.Sublist (r.toList.zip x.spots)
  joined : x.joined.Sublist x.joins

namespace Lineage

/-- A lineage and a view of it say what an outline says, under the ids of a scheme. -/
structure Follows (l : Lineage) (r : Registry) (x : Outline) (scheme : IdScheme) (text : String) :
    Prop where
  nodes : l.graph.nodes.toList = r.toList.map fun p => ⟨scheme.nodeId p, p.type, p.name⟩
  names : ∀ p ∈ r.toList, l.graph.idForName? p.name = some (scheme.nodeId p)
  edges : l.graph.edges.toList.map Edge.link = x.joins.map (Join.link scheme)
  placed : l.layout.placements.toList.map Placement.id = r.toList.map scheme.nodeId
  spots : l.layout.placements.toList.map Placement.spot = x.spots
  sweeps : l.layout.sweeps = x.sweeps
  reported : l.layout.ignoredEdges = x.ignored.filterMap fun j => l.graph.edges[j]?.map Edge.id
  ignored : ∀ j e, l.graph.edges[j]? = some e → (e.id ∈ l.layout.ignoredEdges ↔ j ∈ x.ignored)
  shown : (l.view text).nodes.toList = x.shown.map (DrawnNode.ofRecord scheme)
  joined : (l.view text).edges.toList.map DrawnEdge.link = x.joined.map (Join.link scheme)

/-- The outline of a lineage whose edges are those between some records. -/
def outline (l : Lineage) (r : Registry) (joins : List Join) (scheme : IdScheme) (text : String) :
    Outline where
  joins
  spots := l.layout.placements.toList.map Placement.spot
  sweeps := l.layout.sweeps
  ignored := Layout.closingEdges l.graph
  shown := (r.toList.zip (l.layout.placements.toList.map Placement.spot)).filter fun y =>
    l.selects text (scheme.nodeId y.1)
  joined := joins.filter fun y =>
    l.selects text (scheme.nodeId y.source) && l.selects text (scheme.nodeId y.target)

end Lineage

/-! ## A lineage follows its outline -/

/-- A graph in its own layout is drawn node by node, each at its own placement. -/
theorem Drawing.nodes_ofGraph (hg : g.Consistent) (settings : LayoutSettings) :
    (ofGraph g (.ofGraph settings g)).nodes.toList =
      (g.nodes.toList.zip ((Layout.ofGraph settings g).placements.toList.map Placement.spot)).map
        fun (node, spot) => ⟨node.id, node.displayName, node.objectType, node.objectType.layer,
          spot.x, spot.y⟩ := by
  refine List.ext_getElem (by simp [ofGraph, Layout.size_placements]) fun i hi hi' => ?_
  have hlt : i < g.nodes.size := by simpa [ofGraph] using hi
  have hlt' : i < (Layout.ofGraph settings g).placements.size := by rwa [Layout.size_placements]
  have hid : g.nodeIds[i]? = some g.nodes[i].id := by simp [Graph.nodeIds, hlt]
  have hindex : (Layout.ofGraph settings g).positions[g.nodes[i].id]? = some i :=
    (Layout.indexes_positions hg _ i).2 hid
  have hplace : (Layout.ofGraph settings g).placement? g.nodes[i].id =
      some (Layout.ofGraph settings g).placements[i] := by
    rw [Layout.placement?, hindex, Option.bind_some, Array.getElem?_eq_getElem hlt']
  simp [ofGraph, DrawnNode.ofNode, hplace, Placement.spot]

namespace Lineage

variable {joins : List Join}

/-- The nodes of a view, told of records. -/
theorem shown_ofRegistry (h : r.Built) (joins : List Join) :
    let l := ofRegistry ⟨⟨scheme, source⟩, settings⟩ r
    (l.view text).nodes.toList =
      (l.outline r joins scheme text).shown.map (DrawnNode.ofRecord scheme) := by
  intro l
  have hl : l.InStep := inStep_ofRegistry _ _
  have hnodes : l.graph.nodes.toList = r.toList.map (BuildOptions.node ⟨scheme, source⟩) :=
    Graph.nodes_ofRegistry h
  have hfull : (l.view "").nodes.toList =
      (r.toList.zip (l.layout.placements.toList.map Placement.spot)).map
        (DrawnNode.ofRecord scheme) := by
    rw [hl.view_blank]
    refine (Drawing.nodes_ofGraph hl.graph settings).trans ?_
    rw [hnodes, List.zip_map_left, List.map_map]
    rfl
  rw [hl.view_nodes, hfull, List.filter_map]
  rfl

/-- The edges of a view, told of records. -/
theorem joined_ofRegistry (h : r.Built)
    (hjoins : (⟨scheme, source⟩ : BuildOptions).links r.toList = joins.map (Join.link scheme)) :
    let l := ofRegistry ⟨⟨scheme, source⟩, settings⟩ r
    (l.view text).edges.toList.map DrawnEdge.link =
      (l.outline r joins scheme text).joined.map (Join.link scheme) := by
  intro l
  have hl : l.InStep := inStep_ofRegistry _ _
  have hlinks : l.graph.edges.toList.map Edge.link = joins.map (Join.link scheme) :=
    (Graph.links_ofRegistry h).trans hjoins
  let picked : String × String × EdgeKind → Bool := fun x =>
    l.selects text x.1 && l.selects text x.2.1
  calc (l.view text).edges.toList.map DrawnEdge.link
      = (l.graph.edges.toList.filter (picked ∘ Edge.link)).map Edge.link := by
        rw [hl.view_edges, hl.view_blank, Drawing.ofGraph, Array.toList_map, List.filter_map,
          List.map_map]
        rfl
    _ = (l.graph.edges.toList.map Edge.link).filter picked := by rw [List.filter_map]
    _ = (joins.filter (picked ∘ Join.link scheme)).map (Join.link scheme) := by
        rw [hlinks, List.filter_map]

/-- **A lineage follows its own outline.** -/
theorem follows_outline (h : r.Built)
    (hjoins : (⟨scheme, source⟩ : BuildOptions).links r.toList = joins.map (Join.link scheme)) :
    let l := ofRegistry ⟨⟨scheme, source⟩, settings⟩ r
    l.Follows r (l.outline r joins scheme text) scheme text where
  nodes := Graph.nodes_ofRegistry h
  names := by
    intro p hp
    have hget : r.get? p.name = some p := h.get?_eq_some_iff.2 ⟨hp, rfl⟩
    exact (Graph.idForName?_ofRegistry h p.name).trans (by rw [hget, Option.map_some])
  edges := (Graph.links_ofRegistry h).trans hjoins
  placed := (Layout.map_id_placements settings _).trans (Graph.nodeIds_ofRegistry h)
  spots := rfl
  sweeps := rfl
  reported := rfl
  ignored := fun _ _ he => Layout.mem_ignoredEdges_iff (Graph.consistent_ofParts _ _) he
  shown := shown_ofRegistry h joins
  joined := joined_ofRegistry h hjoins

theorem isOf_outline (h : r.Built)
    (hjoins : (⟨scheme, source⟩ : BuildOptions).links r.toList = joins.map (Join.link scheme))
    (hends : ∀ x ∈ joins, x.source ∈ r.toList ∧ x.target ∈ r.toList) :
    ((ofRegistry ⟨⟨scheme, source⟩, settings⟩ r).outline r joins scheme text).IsOf r := by
  refine ⟨hends, ?_, List.filter_sublist, List.filter_sublist⟩
  have hsize : (Graph.ofRegistry ⟨scheme, source⟩ r).edges.size = joins.length := by
    simpa using congrArg List.length ((Graph.links_ofRegistry h).trans hjoins)
  have hsub : (Layout.closingEdges (Graph.ofRegistry ⟨scheme, source⟩ r)).Sublist
      (List.range (Graph.ofRegistry ⟨scheme, source⟩ r).edges.size) := List.filter_sublist
  rwa [hsize] at hsub

/-! ## One outline for all schemes -/

/-- **Records are selected alike** under every scheme. -/
theorem selects_nodeId (h : r.Built) (source : Option String) (settings : LayoutSettings)
    (text : String) (scheme scheme' : IdScheme) (hp : p ∈ r.toList) :
    (ofRegistry ⟨⟨scheme, source⟩, settings⟩ r).selects text (scheme.nodeId p) =
      (ofRegistry ⟨⟨scheme', source⟩, settings⟩ r).selects text (scheme'.nodeId p) := by
  obtain ⟨i, hi⟩ := List.mem_iff_getElem?.1 hp
  have hg : ∀ scheme, (Graph.ofRegistry ⟨scheme, source⟩ r).InStep :=
    fun _ => Graph.inStep_ofParts _ _
  have hpos : ∀ scheme, (Graph.ofRegistry ⟨scheme, source⟩ r).positionOf? (scheme.nodeId p) =
      some i := fun _ => Graph.positionOf?_nodeId h hi
  have hmem := (Graph.alike_ofRegistry h source scheme scheme').mem_select_iff (hg _) (hg _)
    (Selector.parse text) ((hg scheme).consistent.positionOf?_lt (hpos scheme))
  rw [(hg _).consistent.idAt_eq (hpos scheme), (hg _).consistent.idAt_eq (hpos scheme')] at hmem
  rw [Bool.eq_iff_iff, selects, selects, Std.TreeSet.contains_iff_mem, Std.TreeSet.contains_iff_mem]
  exact hmem

/-- **The outline is the same under every scheme.** -/
theorem outline_congr (h : r.Built) (source : Option String) (settings : LayoutSettings)
    (text : String) (scheme scheme' : IdScheme)
    (hends : ∀ x ∈ joins, x.source ∈ r.toList ∧ x.target ∈ r.toList) :
    (ofRegistry ⟨⟨scheme, source⟩, settings⟩ r).outline r joins scheme text =
      (ofRegistry ⟨⟨scheme', source⟩, settings⟩ r).outline r joins scheme' text := by
  set l := ofRegistry ⟨⟨scheme, source⟩, settings⟩ r
  set l' := ofRegistry ⟨⟨scheme', source⟩, settings⟩ r
  have halike : Graph.Alike l.graph l'.graph := Graph.alike_ofRegistry h source scheme scheme'
  have hspots : l.layout.placements.toList.map Placement.spot =
      l'.layout.placements.toList.map Placement.spot := Layout.spots_congr settings halike
  have hsweeps : l.layout.sweeps = l'.layout.sweeps := Layout.sweeps_congr settings halike
  have hselects : ∀ p ∈ r.toList,
      l.selects text (scheme.nodeId p) = l'.selects text (scheme'.nodeId p) :=
    fun p hp => selects_nodeId h source settings text scheme scheme' hp
  have hshown : ∀ y ∈ r.toList.zip (l'.layout.placements.toList.map Placement.spot),
      l.selects text (scheme.nodeId y.1) = l'.selects text (scheme'.nodeId y.1) :=
    fun y hy => hselects y.1 (List.of_mem_zip hy).1
  have hjoined : ∀ y ∈ joins,
      (l.selects text (scheme.nodeId y.source) && l.selects text (scheme.nodeId y.target)) =
        (l'.selects text (scheme'.nodeId y.source) &&
          l'.selects text (scheme'.nodeId y.target)) := by
    intro y hy
    obtain ⟨hsource, htarget⟩ := hends y hy
    rw [hselects _ hsource, hselects _ htarget]
  rw [outline, outline, hspots, hsweeps, halike.closingEdges_eq, List.filter_congr hshown,
    List.filter_congr hjoined]

/-- **A scheme of ids only renames.** For a registry, a default source, settings of the layout and a
selector's text there is one outline that every scheme follows. So under each scheme the node at a
position is that of the record there, none is left out, and the name of each record finds it; edges
join the same records and are of the same kind, edge by edge; ranks, orders, coordinates, sweeps and
the positions of the ignored edges are the same; and the views show the same records at the same
places and the same edges, up to ids. -/
theorem id_scheme_only_renames (h : r.Built) (source : Option String) (settings : LayoutSettings)
    (text : String) : ∃ x : Outline, x.IsOf r ∧ ∀ scheme,
      (ofRegistry ⟨⟨scheme, source⟩, settings⟩ r).Follows r x scheme text := by
  obtain ⟨joins, hends, hjoins⟩ := exists_joins source r.toList
  refine ⟨(ofRegistry ⟨⟨.name, source⟩, settings⟩ r).outline r joins .name text,
    isOf_outline h (hjoins .name) hends, fun scheme => ?_⟩
  rw [outline_congr h source settings text .name scheme hends]
  exact follows_outline h (hjoins scheme)

/-- A model and a source that read each other, the source under the typed id of the model. -/
theorem exists_outline_of_name_like_id :
    let r := Registry.ofList [⟨"a", .model, ["model:a"]⟩, ⟨"model:a", .source, ["a"]⟩]
    let l := fun scheme => ofRegistry ⟨⟨scheme, none⟩, {}⟩ r
    r.Built ∧ (l .name).graph.nodeIds = ["a", "model:a"] ∧
    (l .typed).graph.nodeIds = ["model:a", "source:model:a"] ∧
    ∃ x : Outline, x.IsOf r ∧ ∀ scheme, (l scheme).Follows r x scheme "1+a" := by
  intro r l
  have hbuilt : r.Built := Registry.Built.ofList _
  exact ⟨hbuilt, by decide +kernel, by decide +kernel, id_scheme_only_renames hbuilt none {} "1+a"⟩

end Lineage

end DataLineage
