import DataLineage.Placement.Layout

/-!
# Drawings

What a diagram shows of a graph: each node with its place, each edge with its kind.

* `Drawing.size_nodes`: a drawing shows each node of the graph once.
-/

namespace DataLineage

structure DrawnNode where
  id : String
  displayName : String
  objectType : ObjectType
  layer : ObjectLayer
  x : Float
  y : Float
  deriving Inhabited

structure DrawnEdge where
  id : String
  source : String
  target : String
  kind : EdgeKind
  deriving DecidableEq, Repr, Inhabited

structure Drawing where
  nodes : Array DrawnNode := #[]
  edges : Array DrawnEdge := #[]
  deriving Inhabited

/-- A node as drawn. A node that the layout does not place stands at the origin. -/
def DrawnNode.ofNode (layout : Layout) (node : Node) : DrawnNode :=
  let (x, y) := match layout.placement? node.id with
    | some p => (p.x, p.y)
    | none => (0, 0)
  ⟨node.id, node.displayName, node.objectType, node.objectType.layer, x, y⟩

def DrawnEdge.ofEdge (edge : Edge) : DrawnEdge := ⟨edge.id, edge.source, edge.target, edge.kind⟩

namespace Drawing

/-- A graph drawn with the places of a layout, often that of a larger graph. -/
def ofGraph (g : Graph) (layout : Layout) : Drawing :=
  ⟨g.nodes.map (DrawnNode.ofNode layout), g.edges.map DrawnEdge.ofEdge⟩

def isEmpty (d : Drawing) : Bool := d.nodes.isEmpty

def node? (d : Drawing) (id : String) : Option DrawnNode := d.nodes.find? fun node => node.id == id

/-- A drawing shows each node of the graph once. -/
theorem size_nodes (g : Graph) (layout : Layout) : (ofGraph g layout).nodes.size = g.nodes.size := by
  simp [ofGraph]

end Drawing

end DataLineage
