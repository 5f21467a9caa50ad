import DataLineage.Proofs.GraphParts

/-!
# Parts of a graph

A part of a graph is built anew from the nodes and edges picked. Node ids are distinct in a graph,
edge ids too, and the edges picked join nodes picked, so nothing is left out a second time and no
edge changes its id.

* `Graph.nodes_ofParts`, `Graph.edges_ofParts`: parts that fit together are kept as they are.
* `Graph.Consistent.nodes_restrict`, `Graph.Consistent.edges_restrict`: what a part of a graph
  holds.
* `Graph.Consistent.restrict_all`: the part with all nodes has all edges.
-/

namespace DataLineage

namespace Graph

variable {g : Graph} {nodes : List Node} {edges : List Edge}

theorem nodes_addEdge (g : Graph) (taken : Std.TreeSet String) (edge : Edge) :
    (g.addEdge taken edge).1.nodes = g.nodes := by
  unfold addEdge
  split <;> rfl

theorem nodes_foldl_addEdge (edges : List Edge) (s : Graph × Std.TreeSet String) :
    (edges.foldl (fun s edge => addEdge s.1 s.2 edge) s).1.nodes = s.1.nodes := by
  induction edges generalizing s with
  | nil => rfl
  | cons edge edges ih => rw [List.foldl_cons, ih, nodes_addEdge]

/-- Nodes with new ids come to the end. -/
theorem nodes_foldl_addNode (h : g.Consistent) (hnd : (g.nodeIds ++ nodes.map Node.id).Nodup) :
    (nodes.foldl addNode g).nodes.toList = g.nodes.toList ++ nodes := by
  induction nodes generalizing g with
  | nil => simp
  | cons node nodes ih =>
    have hnew : ¬ g.positions.contains node.id := by
      rw [h.positions.contains_iff_mem]
      intro hmem
      exact (List.nodup_append.1 hnd).2.2 _ hmem _ List.mem_cons_self rfl
    have hnodes : (g.addNode node).nodes = g.nodes.push node := by rw [nodes_addNode, if_neg hnew]
    have hids : (g.addNode node).nodeIds = g.nodeIds ++ [node.id] := by simp [nodeIds, hnodes]
    rw [List.foldl_cons, ih (h.addNode node), hnodes]
    · simp
    · rw [hids]
      simpa using hnd

/-- Edges between nodes of the graph come to the end, and keep ids that are new. -/
theorem edges_foldl_addEdge {s : Graph × Std.TreeSet String} (h : s.1.Consistent)
    (ht : ∀ id, id ∈ s.2 ↔ id ∈ s.1.edges.toList.map Edge.id)
    (hends : ∀ e ∈ edges, Within s.1.nodeIds e)
    (hnd : (s.1.edges.toList.map Edge.id ++ edges.map Edge.id).Nodup) :
    (edges.foldl (fun s edge => addEdge s.1 s.2 edge) s).1.edges.toList =
      s.1.edges.toList ++ edges := by
  induction edges generalizing s with
  | nil => simp
  | cons edge edges ih =>
    obtain ⟨h₁, h₂⟩ := h.addEdge ht edge
    have hnew : ¬ s.2.contains edge.id := by
      rw [Std.TreeSet.contains_iff_mem, ht]
      intro hmem
      exact (List.nodup_append.1 hnd).2.2 _ hmem _ List.mem_cons_self rfl
    have hin : (s.1.contains edge.source && s.1.contains edge.target) = true := by
      rw [Bool.and_eq_true, h.contains_iff, h.contains_iff]
      exact hends edge List.mem_cons_self
    have hedges : (s.1.addEdge s.2 edge).1.edges = s.1.edges.push edge := by
      rw [edges_addEdge, if_pos hin, if_neg hnew]
    rw [List.foldl_cons, ih h₁ h₂, hedges]
    · simp
    · rw [nodeIds_addEdge]
      exact fun e he => hends e (List.mem_cons_of_mem edge he)
    · rw [hedges]
      simpa using hnd

/-- Of nodes with distinct ids all are kept. -/
theorem nodes_ofParts (edges : List Edge) (hnd : (nodes.map Node.id).Nodup) :
    (ofParts nodes edges).nodes.toList = nodes := by
  rw [ofParts, nodes_foldl_addEdge, nodes_foldl_addNode consistent_empty]
  · simp [empty]
  · simpa [nodeIds, empty] using hnd

/-- **Of edges with distinct ids that join the nodes all are kept**, each with its own id. -/
theorem edges_ofParts (hends : ∀ e ∈ edges, Within (nodes.map Node.id) e)
    (hnd : (edges.map Edge.id).Nodup) : (ofParts nodes edges).edges.toList = edges := by
  have hnone : (nodes.foldl addNode empty).edges = #[] := edges_foldl_addNode nodes empty
  rw [ofParts, edges_foldl_addEdge (consistent_empty.foldl_addNode nodes) (by simp [hnone])]
  · simp [hnone]
  · intro e he
    rw [Within, mem_nodeIds_foldl_empty, mem_nodeIds_foldl_empty]
    exact hends e he
  · simpa [hnone] using hnd

/-! ## Restriction -/

/-- **A part of a graph has the nodes picked**, in order. -/
theorem Consistent.nodes_restrict (h : g.Consistent) (selected : String → Bool) :
    (g.restrict selected).nodes.toList = g.nodes.toList.filter fun node => selected node.id := by
  refine nodes_ofParts _ ?_
  exact (List.filter_sublist.map Node.id).nodup h.positions.nodup

/-- **A part of a graph has the edges between the nodes picked**, in order and under their ids. -/
theorem Consistent.edges_restrict (h : g.Consistent) (selected : String → Bool) :
    (g.restrict selected).edges.toList =
      g.edges.toList.filter fun edge => selected edge.source && selected edge.target := by
  have hmem : ∀ id ∈ g.nodeIds, selected id →
      id ∈ (g.nodes.toList.filter fun node => selected node.id).map Node.id := by
    intro id hid hselected
    obtain ⟨node, hnode, rfl⟩ := List.mem_map.1 hid
    exact List.mem_map_of_mem (List.mem_filter.2 ⟨hnode, hselected⟩)
  refine edges_ofParts ?_ ?_
  · intro e he
    obtain ⟨he, hselected⟩ := List.mem_filter.1 he
    obtain ⟨hs, ht⟩ := h.ends e (Array.mem_toList_iff.1 he)
    rw [Bool.and_eq_true] at hselected
    exact ⟨hmem e.source hs hselected.1, hmem e.target ht hselected.2⟩
  · exact (List.filter_sublist.map Edge.id).nodup h.edgeIds

/-- The part with all nodes has all edges. -/
theorem Consistent.restrict_all (h : g.Consistent) {selected : String → Bool}
    (hall : ∀ id ∈ g.nodeIds, selected id) :
    (g.restrict selected).nodes = g.nodes ∧ (g.restrict selected).edges = g.edges := by
  constructor
  · rw [← Array.toList_inj, h.nodes_restrict, List.filter_eq_self]
    intro node hnode
    exact hall node.id (List.mem_map_of_mem hnode)
  · rw [← Array.toList_inj, h.edges_restrict, List.filter_eq_self]
    intro e he
    obtain ⟨hs, ht⟩ := h.ends e (Array.mem_toList_iff.1 he)
    rw [hall _ hs, hall _ ht, Bool.and_self]

/-- An edge of a part joins nodes of the part. -/
theorem ends_restrict (g : Graph) (selected : String → Bool) {e : Edge}
    (he : e ∈ (g.restrict selected).edges) :
    e.source ∈ (g.restrict selected).nodeIds ∧ e.target ∈ (g.restrict selected).nodeIds :=
  (consistent_ofParts _ _).ends e he

end Graph

end DataLineage
