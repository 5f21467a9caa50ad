import DataLineage.Graph.Basic
import DataLineage.Settings.Basic
import DataLineage.Placement.CycleEdges
import DataLineage.Placement.Orders

/-!
# Layout

Ranks run from left to right, and every edge that closes no cycle leads to a higher rank. A node's
coordinates are its rank and its place in the rank, times the distances of the settings. Equal
graphs have equal layouts; a view lays out the whole graph and shows a part of it, so that nodes stay
where they are when the selection changes.

* `Layout.size_placements`: every node of the graph is placed, and nothing else.
-/

namespace DataLineage

/-- Where a node is drawn: its rank, its place within the rank and the coordinates of both. -/
structure Placement where
  id : String
  rank : Nat
  order : Nat
  x : Float
  y : Float
  deriving Inhabited

/-- The placements in the order of the nodes, and what was done to find them. -/
structure Layout where
  placements : Array Placement := #[]
  /-- The ids of the edges that close cycles and were left out of the ranking, in order. -/
  ignoredEdges : List String := []
  sweeps : Nat := 0
  positions : Std.TreeMap String Nat := ∅
  deriving Inhabited

/-- The ends of an edge by node position, with the edge's own position. -/
structure EdgeEnds where
  edge : Nat
  source : Nat
  target : Nat
  deriving DecidableEq, Repr, Inhabited

/-- The ends of all edges, in order. -/
def Graph.edgeEnds (g : Graph) : List EdgeEnds :=
  g.edges.toList.zipIdx.filterMap fun (edge, i) =>
    match g.positionOf? edge.source, g.positionOf? edge.target with
    | some source, some target => some ⟨i, source, target⟩
    | _, _ => none

/-- The edges out of each of `n` nodes, in order. -/
def outEdges (n : Nat) (ends : List EdgeEnds) : Array (List CycleEdges.Out) :=
  ends.foldl (fun outs e => outs.modify e.source (· ++ [(e.target, e.edge)]))
    (Array.replicate n [])

/-- Which of `n` nodes have no edge to or from another node. -/
def isolatedNodes (n : Nat) (ends : List EdgeEnds) : Array Bool :=
  ends.foldl (fun isolated e =>
    if e.source = e.target then isolated
    else (isolated.setIfInBounds e.source false).setIfInBounds e.target false)
    (Array.replicate n true)

namespace Layout

def empty : Layout := {}

/-- The positions of the edges that close cycles, in order. -/
def closingEdges (g : Graph) : List Nat :=
  let closing := CycleEdges.find (outEdges g.nodes.size g.edgeEnds)
  (List.range g.edges.size).filter closing.contains

/-- The neighbours along the edges that count for ranks. -/
def adjacency (g : Graph) : Adjacency :=
  let closing := closingEdges g
  .ofEdges g.nodes.size
    ((g.edgeEnds.filter fun e => !closing.contains e.edge).map fun e => (e.source, e.target))

def orderInput (g : Graph) : OrderInput :=
  let adjacency := adjacency g
  ⟨adjacency.ranks, adjacency, isolatedNodes g.nodes.size g.edgeEnds⟩

/-- The layout of a graph. -/
def ofGraph (settings : LayoutSettings) (g : Graph) : Layout :=
  let input := orderInput g
  let arranged := Arranged.ofInput input settings.sweepBudget
  let placements := g.nodes.mapIdx fun i node =>
    let rank := input.rankOf i
    let order := arranged.arrangement.placeOf i
    -- ranks go to the right, places in a rank go down
    { id := node.id, rank, order
      x := Float.ofNat rank * settings.column, y := Float.ofNat order * settings.row : Placement }
  { placements
    ignoredEdges := (closingEdges g).filterMap fun i => g.edges[i]?.map (·.id)
    sweeps := arranged.sweeps
    positions := placements.toList.zipIdx.foldl (fun m (p, i) => m.insert p.id i) ∅ }

/-- The placements of a graph's nodes with the default number of sweeps. -/
def place (g : Graph) (nodeSize : NodeSize) (spacing : Spacing) : Array Placement :=
  (ofGraph { nodeSize, spacing } g).placements

def placement? (l : Layout) (id : String) : Option Placement :=
  l.positions[id]?.bind (l.placements[·]?)

def isEmpty (l : Layout) : Bool := l.placements.isEmpty

/-- Every node of the graph is placed, and nothing else. -/
theorem size_placements (settings : LayoutSettings) (g : Graph) :
    (ofGraph settings g).placements.size = g.nodes.size := by
  simp [ofGraph]

end Layout

end DataLineage
