import DataLineage.Proofs.GraphTables
import Mathlib.Data.List.Induction

/-!
# What a graph keeps of its parts

A graph is made of a list of nodes and a list of edges. Of the nodes it keeps one for each id, and
of the edges those between its nodes, in order.

* `Graph.mem_nodeIds_ofParts`: the ids of a graph are those of the nodes it was made of.
* `Graph.links_ofParts`: the edges kept, by their ends and kinds.
-/

namespace DataLineage

/-- What an edge says apart from its id: its source, its target and its kind. -/
def Edge.link (e : Edge) : String × String × EdgeKind := (e.source, e.target, e.kind)

namespace Graph

variable {g : Graph} {a : String}

theorem mem_nodeIds_addNode (h : g.Consistent) (node : Node) :
    a ∈ (g.addNode node).nodeIds ↔ a ∈ g.nodeIds ∨ a = node.id := by
  rw [nodeIds, nodes_addNode]
  split
  next hold =>
    have hmem : node.id ∈ g.nodeIds := h.positions.contains_iff_mem.1 hold
    constructor
    · exact Or.inl
    · rintro (ha | rfl)
      · exact ha
      · exact hmem
  next =>
    rw [Array.toList_push, List.map_append, List.mem_append, List.map_singleton,
      List.mem_singleton]
    rfl

theorem mem_nodeIds_foldl_addNode (h : g.Consistent) (nodes : List Node) :
    a ∈ (nodes.foldl addNode g).nodeIds ↔ a ∈ g.nodeIds ∨ a ∈ nodes.map Node.id := by
  induction nodes generalizing g with
  | nil => simp
  | cons node nodes ih =>
    rw [List.foldl_cons, ih (h.addNode node), mem_nodeIds_addNode h, List.map_cons, List.mem_cons,
      or_assoc]

theorem nodeIds_addEdge (g : Graph) (taken : Std.TreeSet String) (edge : Edge) :
    (g.addEdge taken edge).1.nodeIds = g.nodeIds := by
  unfold addEdge
  split <;> rfl

theorem nodeIds_foldl_addEdge (edges : List Edge) (s : Graph × Std.TreeSet String) :
    (edges.foldl (fun s edge => addEdge s.1 s.2 edge) s).1.nodeIds = s.1.nodeIds := by
  induction edges generalizing s with
  | nil => rfl
  | cons edge edges ih => rw [List.foldl_cons, ih, nodeIds_addEdge]

theorem mem_nodeIds_foldl_empty (nodes : List Node) :
    a ∈ (nodes.foldl addNode empty).nodeIds ↔ a ∈ nodes.map Node.id := by
  rw [mem_nodeIds_foldl_addNode consistent_empty]
  simp [nodeIds, empty]

/-- The ids of a graph are those of the nodes it was made of. -/
theorem mem_nodeIds_ofParts (nodes : List Node) (edges : List Edge) :
    a ∈ (ofParts nodes edges).nodeIds ↔ a ∈ nodes.map Node.id := by
  rw [ofParts, nodeIds_foldl_addEdge, mem_nodeIds_foldl_empty]

/-- Whether both ends of an edge are among some ids. -/
def Within (ids : List String) (e : Edge) : Prop := e.source ∈ ids ∧ e.target ∈ ids

instance (ids : List String) : DecidablePred (Within ids) := fun _ => instDecidableAnd

theorem Consistent.contains_iff (h : g.Consistent) : g.contains a ↔ a ∈ g.nodeIds :=
  h.positions.contains_iff_mem

/-- An edge between nodes of the graph comes to the end, under whatever id. -/
theorem links_addEdge (h : g.Consistent) (taken : Std.TreeSet String) (edge : Edge) :
    (g.addEdge taken edge).1.edges.toList.map Edge.link =
      g.edges.toList.map Edge.link ++
        if Within g.nodeIds edge then [edge.link] else [] := by
  have hcond : (g.contains edge.source && g.contains edge.target) = true ↔
      Within g.nodeIds edge := by
    rw [Bool.and_eq_true, h.contains_iff, h.contains_iff]
    exact Iff.rfl
  rw [edges_addEdge]
  by_cases hw : Within g.nodeIds edge
  · rw [if_pos (hcond.2 hw), if_pos hw, Array.toList_push, List.map_append]
    rfl
  · rw [if_neg (hcond.not.2 hw), if_neg hw, List.append_nil]

theorem links_foldl_addEdge (edges : List Edge) {s : Graph × Std.TreeSet String}
    (h : s.1.Consistent) (ht : ∀ id, id ∈ s.2 ↔ id ∈ s.1.edges.toList.map Edge.id) :
    (edges.foldl (fun s edge => addEdge s.1 s.2 edge) s).1.edges.toList.map Edge.link =
      s.1.edges.toList.map Edge.link ++
        (edges.filter fun e => Within s.1.nodeIds e).map Edge.link := by
  induction edges generalizing s with
  | nil => simp
  | cons edge edges ih =>
    obtain ⟨h₁, h₂⟩ := h.addEdge ht edge
    rw [List.foldl_cons, ih h₁ h₂, links_addEdge h, nodeIds_addEdge, List.filter_cons]
    by_cases hw : Within s.1.nodeIds edge <;> simp [hw]

/-- **The edges kept are those between the nodes given**, in order and each with its own ends and
kind. -/
theorem links_ofParts (nodes : List Node) (edges : List Edge) :
    (ofParts nodes edges).edges.toList.map Edge.link =
      (edges.filter fun e => Within (nodes.map Node.id) e).map Edge.link := by
  have hnodes := consistent_empty.foldl_addNode nodes
  have hnone : (nodes.foldl addNode empty).edges = #[] := edges_foldl_addNode nodes empty
  have hids : ∀ id, id ∈ (nodes.foldl addNode empty).nodeIds ↔ id ∈ nodes.map Node.id :=
    fun _ => mem_nodeIds_foldl_empty nodes
  rw [ofParts, links_foldl_addEdge edges hnodes (by simp [hnone])]
  simp only [hnone, Within, hids, List.map_nil, List.nil_append]

end Graph

end DataLineage
