import DataLineage.Proofs.GraphRestriction
import DataLineage.Proofs.LayoutRanks
import DataLineage.View.Cache

/-!
# Views of a selection

A view shows a part of a graph with the places of the whole graph. So a selector decides only what
is shown of the full view: each node it shows stands where it stands in the full view, and each edge
it shows is that of the full view.

* `Layout.exists_placement?`: a layout has a place for each node of its graph.
* `Lineage.InStep.view_nodes`, `Lineage.InStep.view_edges`: what a view shows.
* `Lineage.view_restricts_full_view`: the statement.
-/

namespace DataLineage

variable {l : Lineage} {text text' : String}

/-- A layout has a place for each node of its graph. -/
theorem Layout.exists_placement? {g : Graph} (settings : LayoutSettings) (h : g.Consistent)
    {id : String} (hid : id ∈ g.nodeIds) :
    ∃ p, (ofGraph settings g).placement? id = some p ∧ p.id = id := by
  have hindex : Indexes (ofGraph settings g).positions g.nodeIds := indexes_positions h
  obtain ⟨i, hi⟩ := hindex.exists_iff_mem.2 hid
  have hat : (ofGraph settings g).placements.toList.map Placement.id = g.nodeIds :=
    map_id_placements settings g
  have hget := (hindex id i).1 hi
  rw [← hat, List.getElem?_map, Array.getElem?_toList, Option.map_eq_some_iff] at hget
  obtain ⟨p, hp, hpid⟩ := hget
  exact ⟨p, by rw [placement?, hi, Option.bind_some, hp], hpid⟩

namespace Lineage

/-- The ids that a selector's text selects in a lineage. -/
def selects (l : Lineage) (text : String) (id : String) : Bool :=
  ((Selector.parse text).select l.graph).contains id

/-- **A lineage as it is computed**: a graph in step with its tables, and a place for each node. -/
structure InStep (l : Lineage) : Prop where
  graph : l.graph.Consistent
  placed : ∀ id ∈ l.graph.nodeIds, ∃ p, l.layout.placement? id = some p ∧ p.id = id

theorem inStep_ofRegistry (settings : Settings) (registry : Registry) :
    (ofRegistry settings registry).InStep := by
  have h : (Graph.ofRegistry settings.build registry).Consistent := Graph.consistent_ofParts _ _
  exact ⟨h, fun _ hid => Layout.exists_placement? settings.layout h hid⟩

/-! ## What a view shows -/

/-- A blank selector selects every node. -/
theorem selects_blank (l : Lineage) {id : String} (hid : id ∈ l.graph.nodeIds) :
    l.selects "" id := by
  have hall : Selector.parse "" = .all := (Selector.parse_eq_all_iff "").2 rfl
  rw [selects, hall, Selector.select, Std.TreeSet.contains_ofList, List.contains_iff_mem]
  exact hid

/-- The full view draws the whole graph. -/
theorem InStep.view_blank (h : l.InStep) : l.view "" = .ofGraph l.graph l.layout := by
  have hall : ∀ id ∈ l.graph.nodeIds, l.selects "" id := fun _ hid => l.selects_blank hid
  obtain ⟨hnodes, hedges⟩ := h.graph.restrict_all hall
  have hpart : l.graph.selected "" = l.graph.restrict (l.selects "") := rfl
  rw [view, hpart, Drawing.ofGraph, hnodes, hedges, Drawing.ofGraph]

/-- **A view shows the selected nodes of the full view.** -/
theorem InStep.view_nodes (h : l.InStep) (text : String) :
    (l.view text).nodes.toList = (l.view "").nodes.toList.filter fun n => l.selects text n.id := by
  have hpart : (l.view text).nodes.toList =
      (l.graph.restrict (l.selects text)).nodes.toList.map (DrawnNode.ofNode l.layout) := by
    rw [← Array.toList_map]
    rfl
  rw [hpart, h.graph.nodes_restrict, h.view_blank, Drawing.ofGraph, Array.toList_map,
    List.filter_map]
  rfl

/-- **A view shows the edges of the full view between selected nodes.** -/
theorem InStep.view_edges (h : l.InStep) (text : String) :
    (l.view text).edges.toList = (l.view "").edges.toList.filter fun e =>
      l.selects text e.source && l.selects text e.target := by
  have hpart : (l.view text).edges.toList =
      (l.graph.restrict (l.selects text)).edges.toList.map DrawnEdge.ofEdge := by
    rw [← Array.toList_map]
    rfl
  rw [hpart, h.graph.edges_restrict, h.view_blank, Drawing.ofGraph, Array.toList_map,
    List.filter_map]
  rfl

theorem InStep.mem_view_blank (h : l.InStep) {n : DrawnNode} (hn : n ∈ (l.view text).nodes) :
    n ∈ (l.view "").nodes := by
  rw [← Array.mem_toList_iff, h.view_nodes] at hn
  exact Array.mem_toList_iff.1 (List.mem_of_mem_filter hn)

theorem InStep.mem_view_edges_blank (h : l.InStep) {e : DrawnEdge}
    (he : e ∈ (l.view text).edges) : e ∈ (l.view "").edges := by
  rw [← Array.mem_toList_iff, h.view_edges] at he
  exact Array.mem_toList_iff.1 (List.mem_of_mem_filter he)

/-- Node ids are distinct in the full view. -/
theorem InStep.nodup_view_nodes (h : l.InStep) :
    ((l.view "").nodes.toList.map DrawnNode.id).Nodup := by
  rw [h.view_blank, Drawing.ofGraph, Array.toList_map, List.map_map]
  exact h.graph.positions.nodup

/-- Edge ids are distinct in the full view. -/
theorem InStep.nodup_view_edges (h : l.InStep) :
    ((l.view "").edges.toList.map DrawnEdge.id).Nodup := by
  rw [h.view_blank, Drawing.ofGraph, Array.toList_map, List.map_map]
  exact h.graph.edgeIds

/-- A node shown stands at its place in the layout. -/
theorem InStep.placed_of_mem (h : l.InStep) {n : DrawnNode} (hn : n ∈ (l.view text).nodes) :
    ∃ p, l.layout.placement? n.id = some p ∧ n.x = p.x ∧ n.y = p.y := by
  have hfull := h.mem_view_blank hn
  rw [h.view_blank, Drawing.ofGraph, Array.mem_map] at hfull
  obtain ⟨node, hnode, rfl⟩ := hfull
  have hid : node.id ∈ l.graph.nodeIds := List.mem_map_of_mem (Array.mem_toList_iff.2 hnode)
  obtain ⟨p, hp, -⟩ := h.placed node.id hid
  have hdrawn : DrawnNode.ofNode l.layout node =
      ⟨node.id, node.displayName, node.objectType, node.objectType.layer, p.x, p.y⟩ := by
    rw [DrawnNode.ofNode, hp]
  exact ⟨p, by rw [hdrawn, hp], by rw [hdrawn], by rw [hdrawn]⟩

/-- An edge shown joins nodes shown. -/
theorem ends_of_mem_view {e : DrawnEdge} (he : e ∈ (l.view text).edges) :
    (∃ n ∈ (l.view text).nodes, n.id = e.source) ∧
      ∃ n ∈ (l.view text).nodes, n.id = e.target := by
  have hshown : ∀ id ∈ (l.graph.restrict (l.selects text)).nodeIds,
      ∃ n ∈ (l.view text).nodes, n.id = id := by
    intro id hid
    obtain ⟨node, hnode, rfl⟩ := List.mem_map.1 hid
    exact ⟨.ofNode l.layout node, Array.mem_map.2 ⟨node, Array.mem_toList_iff.1 hnode, rfl⟩, rfl⟩
  obtain ⟨edge, hedge, rfl⟩ := Array.mem_map.1 he
  obtain ⟨hs, ht⟩ := Graph.ends_restrict l.graph (l.selects text) hedge
  exact ⟨hshown _ hs, hshown _ ht⟩

/-- **A view is the full view restricted to the selection.** Whatever the settings, the registry and
the selector, a view shows the nodes of the full view that are selected and the edges of the full
view between them, in order and as they are there; the full view shows every node and every edge of
the graph. So what two views show under one id is the same in both, every edge shown joins two nodes
shown, and every node shown stands at its place in the layout of the whole graph. -/
theorem view_restricts_full_view (settings : Settings) (registry : Registry) (text : String) :
    let l := ofRegistry settings registry
    let selected := fun id => id ∈ (Selector.parse text).select l.graph
    (l.view text).nodes.toList = (l.view "").nodes.toList.filter (fun n => selected n.id) ∧
    (l.view text).edges.toList =
      (l.view "").edges.toList.filter (fun e => selected e.source ∧ selected e.target) ∧
    (l.view "").nodes.toList.map DrawnNode.id = l.graph.nodeIds ∧
    (l.view "").edges.toList = l.graph.edges.toList.map DrawnEdge.ofEdge ∧
    (∀ text', ∀ n ∈ (l.view text).nodes, ∀ n' ∈ (l.view text').nodes, n.id = n'.id → n = n') ∧
    (∀ text', ∀ e ∈ (l.view text).edges, ∀ e' ∈ (l.view text').edges, e.id = e'.id → e = e') ∧
    (∀ e ∈ (l.view text).edges, (∃ n ∈ (l.view text).nodes, n.id = e.source) ∧
      ∃ n ∈ (l.view text).nodes, n.id = e.target) ∧
    ∀ n ∈ (l.view text).nodes, ∃ p, l.layout.placement? n.id = some p ∧ n.x = p.x ∧ n.y = p.y := by
  intro l selected
  have h : l.InStep := inStep_ofRegistry settings registry
  have hselected : ∀ id, l.selects text id = decide (selected id) := by
    intro id
    rw [Bool.eq_iff_iff, decide_eq_true_iff, selects, Std.TreeSet.contains_iff_mem]
  refine ⟨?_, ?_, ?_, ?_, ?_, ?_, ?_, ?_⟩
  · simp only [h.view_nodes text, hselected]
  · simp only [h.view_edges text, hselected, Bool.decide_and]
  · rw [h.view_blank, Drawing.ofGraph, Array.toList_map, List.map_map]
    rfl
  · rw [h.view_blank, Drawing.ofGraph, Array.toList_map]
  · intro text' n hn n' hn' hid
    exact List.inj_on_of_nodup_map h.nodup_view_nodes
      (Array.mem_toList_iff.2 (h.mem_view_blank hn))
      (Array.mem_toList_iff.2 (h.mem_view_blank hn')) hid
  · intro text' e he e' he' hid
    exact List.inj_on_of_nodup_map h.nodup_view_edges
      (Array.mem_toList_iff.2 (h.mem_view_edges_blank he))
      (Array.mem_toList_iff.2 (h.mem_view_edges_blank he')) hid
  · intro e he
    exact ends_of_mem_view he
  · intro n hn
    exact h.placed_of_mem hn

end Lineage

end DataLineage
