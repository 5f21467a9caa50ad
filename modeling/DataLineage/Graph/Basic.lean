import DataLineage.Project.Object
import Std.Data.TreeMap
import Std.Data.TreeSet

/-!
# Lineage graphs

Nodes are project objects; an edge runs from a dependency to what depends on it. A graph keeps its
nodes and edges in the order they came, and beside them the tables that searches use: the position
of each node id, the first node of each display name, and the neighbours of each node.

* `Graph.nodes_addNode`, `Graph.edges_addEdge`: what one step of `Graph.ofParts` adds.
-/

namespace DataLineage

/-- A node: the id edges refer to, the type of the object and the name it is shown and selected by. -/
structure Node where
  id : String
  objectType : ObjectType
  displayName : String
  deriving DecidableEq, Repr, Inhabited

/-- Whether a dependency was written down or inferred from the project's default source. -/
inductive EdgeKind where
  | explicit
  | inferred
  deriving DecidableEq, Repr, Inhabited

def EdgeKind.tag : EdgeKind → String
  | explicit => "explicit"
  | inferred => "inferred"

/-- An edge from the dependency `source` to its dependent `target`. -/
structure Edge where
  id : String
  source : String
  target : String
  kind : EdgeKind
  deriving DecidableEq, Repr, Inhabited

namespace Edge

/-- What stands between the two ends in an edge's own id. -/
def idSeparator : String := "->"

/-- The edge between two nodes under its own id. -/
def between (source target : String) (kind : EdgeKind) : Edge :=
  ⟨source ++ idSeparator ++ target, source, target, kind⟩

def isSelfLoop (e : Edge) : Bool := e.source == e.target

end Edge

/-- The way a search walks: against the edges to what a node reads, or along them to its readers. -/
inductive Direction where
  | ancestors
  | descendants
  deriving DecidableEq, Repr, Inhabited

/-- Nodes and edges in order, and the tables kept in step with them. The neighbour lists hold node
positions, the neighbour of the newest edge first. -/
structure Graph where
  nodes : Array Node := #[]
  edges : Array Edge := #[]
  positions : Std.TreeMap String Nat := ∅
  namePositions : Std.TreeMap String Nat := ∅
  outgoing : Array (List Nat) := #[]
  incoming : Array (List Nat) := #[]
  deriving Inhabited

/-- The `n`-th way out for an edge id that is taken. -/
def suffixedId (id : String) (n : Nat) : String := id ++ "#" ++ toString n

/-- The first suffixed form of an id that is not taken. Among one more candidates than there are
taken ids one is free. -/
def freeId (id : String) (taken : Std.TreeSet String) : String :=
  match (List.range' 1 (taken.size + 1)).find? fun n => !taken.contains (suffixedId id n) with
  | some n => suffixedId id n
  | none => id

namespace Graph

def empty : Graph := {}

/-- Adds a node, unless one of its id is there. A display name stays with the first node that has
it. -/
def addNode (g : Graph) (node : Node) : Graph :=
  if g.positions.contains node.id then g
  else
    { g with
      nodes := g.nodes.push node
      positions := g.positions.insert node.id g.nodes.size
      namePositions := g.namePositions.insertIfNew node.displayName g.nodes.size
      outgoing := g.outgoing.push []
      incoming := g.incoming.push [] }

/-- Adds an edge between two nodes of the graph and leaves out any other. An id in `taken` gives way
to its first free suffixed form; `taken` grows by the id the edge ends up with. -/
def addEdge (g : Graph) (taken : Std.TreeSet String) (edge : Edge) :
    Graph × Std.TreeSet String :=
  match g.positions[edge.source]?, g.positions[edge.target]? with
  | some i, some j =>
    let id := if taken.contains edge.id then freeId edge.id taken else edge.id
    ({ g with
        edges := g.edges.push { edge with id }
        outgoing := g.outgoing.modify i (j :: ·)
        incoming := g.incoming.modify j (i :: ·) }, taken.insert id)
  | _, _ => (g, taken)

/-- The graph of these nodes and edges: of nodes with one id the first is kept, edges to unknown
nodes are left out, and edge ids are made distinct. -/
def ofParts (nodes : List Node) (edges : List Edge) : Graph :=
  (edges.foldl (fun s edge => addEdge s.1 s.2 edge) (nodes.foldl addNode empty, ∅)).1

def nodeIds (g : Graph) : List String := g.nodes.toList.map (·.id)

def positionOf? (g : Graph) (id : String) : Option Nat := g.positions[id]?

def node? (g : Graph) (id : String) : Option Node := (g.positionOf? id).bind (g.nodes[·]?)

def contains (g : Graph) (id : String) : Bool := g.positions.contains id

/-- The id of the first node shown under this name. -/
def idForName? (g : Graph) (name : String) : Option String :=
  (g.namePositions[name]?.bind (g.nodes[·]?)).map (·.id)

def isEmpty (g : Graph) : Bool := g.nodes.isEmpty

/-- The positions next to a node in a direction, that of the newest edge first. -/
def neighbours (g : Graph) (direction : Direction) (i : Nat) : List Nat :=
  match direction with
  | .ancestors => (g.incoming[i]?).getD []
  | .descendants => (g.outgoing[i]?).getD []

/-- The nodes whose ids are selected and the edges between them, in order. -/
def restrict (g : Graph) (selected : String → Bool) : Graph :=
  ofParts (g.nodes.toList.filter fun node => selected node.id)
    (g.edges.toList.filter fun edge => selected edge.source && selected edge.target)

/-- Graphs are the same when their nodes and edges are; the tables follow from these. -/
instance : BEq Graph := ⟨fun g h => g.nodes == h.nodes && g.edges == h.edges⟩

theorem nodes_addNode (g : Graph) (node : Node) :
    (g.addNode node).nodes =
      if g.positions.contains node.id then g.nodes else g.nodes.push node := by
  unfold addNode; split <;> rfl

theorem edges_addEdge (g : Graph) (taken : Std.TreeSet String) (edge : Edge) :
    (g.addEdge taken edge).1.edges =
      if g.contains edge.source && g.contains edge.target then
        g.edges.push { edge with
          id := if taken.contains edge.id then freeId edge.id taken else edge.id }
      else g.edges := by
  simp only [contains, ← Std.TreeMap.isSome_getElem?_eq_contains, addEdge]
  cases g.positions[edge.source]? <;> cases g.positions[edge.target]? <;> simp

end Graph

end DataLineage
