import DataLineage.Proofs.GraphRestriction
import DataLineage.Proofs.RegistryEdges

/-!
# The nodes of a registry's graph

A registry has one record of each name, and two names have two ids. So each record is a node of the
graph, none is left out, and a name finds the node of its record.

* `Graph.nodes_ofRegistry`: the nodes, in the order of the records.
* `Graph.idForName?_ofRegistry`: what a name finds.
-/

namespace DataLineage

variable {o : BuildOptions} {r : Registry}

/-- No two records of a registry have one id. -/
theorem Registry.Built.nodup_nodeIds (h : r.Built) (scheme : IdScheme) :
    (r.toList.map scheme.nodeId).Nodup := by
  refine List.Nodup.map_on ?_ h.nodup_names.of_map
  intro p hp q hq hid
  exact h.eq_of_nodeId_eq hp hq hid

namespace Graph

/-- **Each record is a node**, in order. -/
theorem nodes_ofRegistry (h : r.Built) :
    (ofRegistry o r).nodes.toList = r.toList.map o.node := by
  refine nodes_ofParts _ ?_
  rw [List.map_map]
  exact h.nodup_nodeIds o.idScheme

theorem nodeIds_ofRegistry (h : r.Built) :
    (ofRegistry o r).nodeIds = r.toList.map o.idScheme.nodeId := by
  rw [nodeIds, nodes_ofRegistry h, List.map_map]
  rfl

/-- **A name finds the node of its record.** -/
theorem idForName?_ofRegistry (h : r.Built) (name : String) :
    (ofRegistry o r).idForName? name = (r.get? name).map o.idScheme.nodeId := by
  have hfirst : (ofRegistry o r).idForName? name =
      ((ofRegistry o r).nodes.toList.find? (·.displayName == name)).map Node.id :=
    idForName?_ofParts _ _ name
  rw [hfirst, nodes_ofRegistry h, List.find?_map, Option.map_map, h.get?_eq_find?]
  rfl

/-- The links of a registry's graph, record by record. -/
theorem links_ofRegistry (h : r.Built) :
    (ofRegistry o r).edges.toList.map Edge.link = o.links r.toList :=
  (links_eq_of_built o h).trans (EdgeList.links_ofRegistry h)

end Graph

end DataLineage
