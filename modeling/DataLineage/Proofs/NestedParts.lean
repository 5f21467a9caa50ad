import DataLineage.Proofs.GraphAssembly

/-!
# Parts of parts

A part of a graph is built anew, and building could leave nodes out and rename edges. Of what was
kept before everything is kept again, even an edge that gave way to another one that is no longer
there. So picking twice is picking what is in both selections, and picking everything gives the
graph itself.

* `Graph.Consistent.restrict_and`: the part of a part.
* `Graph.restrict_eq_self`: the part with all nodes is the graph, its tables included.
* `Graph.restrict_picks`: the statement.
-/

namespace DataLineage

namespace Graph

variable {g : Graph} {nodes : List Node} {edges : List Edge} {selected : String → Bool}

/-- **A part of a part** is the part of the graph with what both selections pick. -/
theorem Consistent.restrict_and (h : g.Consistent) (selected again : String → Bool) :
    (g.restrict selected).restrict again = g.restrict fun id => selected id && again id := by
  have hnodes : ((g.restrict selected).nodes.toList.filter fun node => again node.id) =
      g.nodes.toList.filter fun node => selected node.id && again node.id := by
    rw [h.nodes_restrict, List.filter_filter]
    exact List.filter_congr fun _ _ => Bool.and_comm _ _
  have hedges : ((g.restrict selected).edges.toList.filter fun e =>
      again e.source && again e.target) = g.edges.toList.filter fun e =>
        (selected e.source && again e.source) && (selected e.target && again e.target) := by
    rw [h.edges_restrict, List.filter_filter]
    refine List.filter_congr fun e _ => ?_
    ac_rfl
  rw [restrict, hnodes, hedges, restrict]

/-- **The part with all nodes is the graph**, its tables included. -/
theorem restrict_eq_self (hall : ∀ id ∈ (ofParts nodes edges).nodeIds, selected id) :
    (ofParts nodes edges).restrict selected = ofParts nodes edges := by
  have h := consistent_ofParts nodes edges
  obtain ⟨hnodes, hedges⟩ := h.restrict_all hall
  rw [restrict, ← h.nodes_restrict, ← h.edges_restrict, hnodes, hedges]
  exact ofParts_toList nodes edges

/-- **What a part holds, and parts of parts.** The part of a graph for a set of ids has the nodes of
the graph with these ids and the edges of the graph with both ends among them, in order and as they
are there. The part of a part is the part for the ids in both sets, so a part is its own part for
the same set, and the part for a set that has all ids of the graph is the graph. -/
theorem restrict_picks (nodes : List Node) (edges : List Edge) (S T : Set String)
    [DecidablePred (· ∈ S)] [DecidablePred (· ∈ T)] :
    let g := ofParts nodes edges
    let part := g.restrict fun id => id ∈ S
    part.nodes.toList = g.nodes.toList.filter (fun node => node.id ∈ S) ∧
    part.edges.toList = g.edges.toList.filter (fun e => e.source ∈ S ∧ e.target ∈ S) ∧
    part.restrict (fun id => id ∈ T) = g.restrict (fun id => id ∈ S ∩ T) ∧
    part.restrict (fun id => id ∈ S) = part ∧
    ({id | id ∈ g.nodeIds} ⊆ S → part = g) := by
  intro g part
  have h : g.Consistent := consistent_ofParts nodes edges
  refine ⟨h.nodes_restrict _, ?_, ?_, ?_, ?_⟩
  · simp only [part, h.edges_restrict, Bool.decide_and]
  · rw [h.restrict_and]
    simp only [Set.mem_inter_iff, Bool.decide_and]
  · rw [h.restrict_and]
    simp only [Bool.and_self, part]
  · intro hall
    exact restrict_eq_self fun id hid => decide_eq_true (hall hid)

/-- The edge that kept its id is gone, and the edge that gave way to it keeps the other id. -/
example :
    let g := ofParts
      [⟨"a", .source, "a"⟩, ⟨"a->b", .source, "a->b"⟩, ⟨"b->c", .model, "b->c"⟩,
        ⟨"c", .model, "c"⟩]
      [.between "a" "b->c" .explicit, .between "a->b" "c" .explicit]
    (g.restrict (· ≠ "a")).edges.toList.map Edge.id = ["a->b->c#1"] := by decide +kernel

end Graph

end DataLineage
