import DataLineage.Proofs.GraphParts
import DataLineage.Proofs.SearchLevels
import Mathlib.Data.Multiset.MapFold

/-!
# Looking things up in a graph

A graph has its nodes and edges in order, and beside them a table of positions, a table of display
names and two tables of neighbours. Building skips some of the parts given, so the tables are in step
with the parts kept and not with those given.

* `Graph.Consistent.positionOf?_iff`, `Graph.Consistent.node?_iff`: looking up by id.
* `Graph.Mirrored.far_neighbours`: the neighbours of a node, as a multiset.
* `Graph.lookups_follow_parts`: the statement.
-/

namespace DataLineage

namespace Graph

variable {g : Graph} {id : String} {node : Node} {direction : Direction} {i : ℕ}

/-- The id at a position is that of the node there. -/
theorem nodeIds_getElem? (g : Graph) (i : ℕ) : g.nodeIds[i]? = g.nodes[i]?.map Node.id := by
  simp only [nodeIds, List.getElem?_map, Array.getElem?_toList]

theorem idAt_eq_id (hi : g.nodes[i]? = some node) : g.idAt i = node.id := by
  rw [idAt, nodeIds_getElem?, hi, Option.map_some, Option.getD_some]

/-- **An id has the position** of the node that has the id. -/
theorem Consistent.positionOf?_iff (h : g.Consistent) :
    g.positionOf? id = some i ↔ ∃ node, g.nodes[i]? = some node ∧ node.id = id := by
  rw [h.positionOf?_eq_some, nodeIds_getElem?, Option.map_eq_some_iff]

/-- **An id has the node** that has the id. -/
theorem Consistent.node?_iff (h : g.Consistent) :
    g.node? id = some node ↔ node ∈ g.nodes ∧ node.id = id := by
  rw [node?, Option.bind_eq_some_iff, Array.mem_iff_getElem?]
  constructor
  · rintro ⟨i, hi, hnode⟩
    obtain ⟨node', hnode', hid⟩ := h.positionOf?_iff.1 hi
    obtain rfl : node' = node := Option.some.inj (hnode'.symm.trans hnode)
    exact ⟨⟨i, hnode⟩, hid⟩
  · rintro ⟨⟨i, hnode⟩, hid⟩
    exact ⟨i, h.positionOf?_iff.2 ⟨node, hnode, hid⟩, hnode⟩

theorem Consistent.contains_iff_positionOf? (h : g.Consistent) :
    g.contains id ↔ ∃ i, g.positionOf? id = some i := by
  rw [h.contains_iff]
  exact h.positions.exists_iff_mem.symm

/-- **The neighbours of a node**, in any order, are at the far ends of its edges, once for each
edge. -/
theorem Mirrored.far_neighbours (hg : g.Consistent) (h : g.Mirrored) (hi : g.nodes[i]? = some node) :
    (g.neighbours direction i : Multiset ℕ).map (fun j => g.nodes[j]?.map Node.id) =
      ((g.edges.toList.filter fun e => e.near direction = node.id : List Edge) :
        Multiset Edge).map fun e => some (e.far direction) := by
  have hlt : i < g.nodes.size := (Array.getElem?_eq_some_iff.1 hi).1
  have hids : (g.neighbours direction i).map (fun j => g.nodes[j]?.map Node.id) =
      ((g.neighbours direction i).map g.idAt).map some := by
    rw [List.map_map]
    refine List.map_congr_left fun j hj => ?_
    have hj : j < g.nodes.size := h.neighbour_lt hg hj
    rw [Function.comp_apply, idAt_eq_id (Array.getElem?_eq_getElem hj),
      Array.getElem?_eq_getElem hj, Option.map_some]
  rw [Multiset.map_coe, Multiset.map_coe, hids, h.ids_neighbours hg hlt, idAt_eq_id hi, farEnds,
    List.filter_reverse, List.map_reverse, List.map_reverse, List.map_map, Multiset.coe_reverse]
  rfl

/-- **The tables of a graph follow the parts it keeps.** The position of an id is that of the node
with the id, and an id without a node has none; the node of an id is that node, and the graph
contains the ids that have one. A display name stands for the id of the first node shown under it.
Each node has a row of outgoing and one of incoming neighbours, and in these the targets of the edges
that leave it and the sources of those that enter it, as often as there are edges. -/
theorem lookups_follow_parts (nodes : List Node) (edges : List Edge) :
    let g := ofParts nodes edges
    (∀ id i, g.positionOf? id = some i ↔ ∃ node, g.nodes[i]? = some node ∧ node.id = id) ∧
    (∀ id (node : Node), g.node? id = some node ↔ node ∈ g.nodes ∧ node.id = id) ∧
    (∀ id, g.contains id ↔ ∃ i, g.positionOf? id = some i) ∧
    (∀ name, g.idForName? name =
      (g.nodes.toList.find? (·.displayName == name)).map Node.id) ∧
    ∀ (i : ℕ) (node : Node), g.nodes[i]? = some node → ∃ after before,
      g.outgoing[i]? = some after ∧ g.incoming[i]? = some before ∧
      (after : Multiset ℕ).map (fun j => g.nodes[j]?.map Node.id) =
        ((g.edges.toList.filter fun e => e.source = node.id : List Edge) :
          Multiset Edge).map (fun e => some e.target) ∧
      (before : Multiset ℕ).map (fun j => g.nodes[j]?.map Node.id) =
        ((g.edges.toList.filter fun e => e.target = node.id : List Edge) :
          Multiset Edge).map (fun e => some e.source) := by
  intro g
  have hg : g.Consistent := consistent_ofParts nodes edges
  have hm : g.Mirrored := mirrored_ofParts nodes edges
  refine ⟨fun _ _ => hg.positionOf?_iff, fun _ _ => hg.node?_iff,
    fun _ => hg.contains_iff_positionOf?, idForName?_ofParts nodes edges, ?_⟩
  intro i node hi
  have hlt : i < g.nodes.size := (Array.getElem?_eq_some_iff.1 hi).1
  have hout : i < g.outgoing.size := hm.size_outgoing.symm ▸ hlt
  have hinc : i < g.incoming.size := hm.size_incoming.symm ▸ hlt
  -- a row that is there is the one that searches ask for
  have hafter : g.neighbours .descendants i = g.outgoing[i] := by
    rw [neighbours, Array.getElem?_eq_getElem hout, Option.getD_some]
  have hbefore : g.neighbours .ancestors i = g.incoming[i] := by
    rw [neighbours, Array.getElem?_eq_getElem hinc, Option.getD_some]
  refine ⟨g.outgoing[i], g.incoming[i], Array.getElem?_eq_getElem hout,
    Array.getElem?_eq_getElem hinc, ?_, ?_⟩
  · rw [← hafter]
    exact hm.far_neighbours hg hi
  · rw [← hbefore]
    exact hm.far_neighbours hg hi

/-- A node that is skipped takes no position, and two edges between the same nodes count twice. -/
example :
    let g := ofParts [⟨"a", .model, "x"⟩, ⟨"a", .chart, "y"⟩, ⟨"b", .chart, "x"⟩]
      [.between "a" "b" .explicit, .between "c" "b" .explicit, .between "a" "b" .inferred]
    g.positionOf? "b" = some 1 ∧ g.idForName? "x" = some "a" ∧ g.idForName? "y" = none ∧
      g.incoming[1]? = some [0, 0] := by decide +kernel

end Graph

end DataLineage
