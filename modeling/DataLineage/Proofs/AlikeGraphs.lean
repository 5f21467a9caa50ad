import DataLineage.Proofs.GraphParts
import DataLineage.Proofs.KeptEdges
import DataLineage.Proofs.SelectorMeaning

/-!
# Graphs alike up to ids

Two graphs are alike when the nodes at each position show the same name, and the edges at each
position join the same positions and are of the same kind. A layout and a selection work on
positions, and on ids only to tell nodes apart. So nodes of alike graphs are placed and selected
alike, position by position.

* `Graph.Alike.closingEdges_eq`, `Graph.Alike.orderInput_eq`: what a layout starts from.
* `Layout.spots_congr`: the places of the nodes.
* `Graph.Alike.mem_select_iff`: what a selector selects.
-/

namespace DataLineage

variable {g g' : Graph} {i j n : ℕ} {direction : Direction}

namespace Graph

/-- What a link says by position. -/
def linkAt (g : Graph) (l : String × String × EdgeKind) : Option ℕ × Option ℕ × EdgeKind :=
  (g.positionOf? l.1, g.positionOf? l.2.1, l.2.2)

/-- What the edges say by position, in order. -/
def joints (g : Graph) : List (Option ℕ × Option ℕ × EdgeKind) :=
  (g.edges.toList.map Edge.link).map g.linkAt

/-- **Graphs alike up to ids.** -/
structure Alike (g g' : Graph) : Prop where
  names : g.nodes.toList.map Node.displayName = g'.nodes.toList.map Node.displayName
  joints : g.joints = g'.joints

namespace Alike

theorem size_nodes (h : Alike g g') : g.nodes.size = g'.nodes.size := by
  simpa using congrArg List.length h.names

theorem size_edges (h : Alike g g') : g.edges.size = g'.edges.size := by
  simpa [Graph.joints] using congrArg List.length h.joints

end Alike

/-! ## Layouts -/

theorem edgeEnds_eq_joints (g : Graph) :
    g.edgeEnds = g.joints.zipIdx.filterMap fun (l, i) =>
      match l.1, l.2.1 with
      | some source, some target => some ⟨i, source, target⟩
      | _, _ => none := by
  rw [joints, List.map_map, List.zipIdx_map, List.filterMap_map]
  rfl

namespace Alike

theorem edgeEnds_eq (h : Alike g g') : g.edgeEnds = g'.edgeEnds := by
  rw [edgeEnds_eq_joints, edgeEnds_eq_joints, h.joints]

/-- The same edges close cycles. -/
theorem closingEdges_eq (h : Alike g g') : Layout.closingEdges g = Layout.closingEdges g' := by
  rw [Layout.closingEdges, Layout.closingEdges, h.size_nodes, h.size_edges, h.edgeEnds_eq]

/-- The nodes are placed by the same ranks, neighbours and marks. -/
theorem orderInput_eq (h : Alike g g') : Layout.orderInput g = Layout.orderInput g' := by
  simp only [Layout.orderInput, Layout.adjacency, h.size_nodes, h.edgeEnds_eq, h.closingEdges_eq]

end Alike

end Graph

/-- Where a node is drawn, whatever its id. -/
structure Spot where
  rank : ℕ
  order : ℕ
  x : Float
  y : Float

def Placement.spot (p : Placement) : Spot := ⟨p.rank, p.order, p.x, p.y⟩

namespace Layout

/-- Where a layout draws the node at a position. -/
def spotAt (settings : LayoutSettings) (input : OrderInput) (i : ℕ) : Spot :=
  let rank := input.rankOf i
  let order := (Arranged.ofInput input settings.sweepBudget).arrangement.placeOf i
  ⟨rank, order, Float.ofNat rank * settings.column, Float.ofNat order * settings.row⟩

theorem spots_ofGraph (settings : LayoutSettings) (g : Graph) :
    (ofGraph settings g).placements.toList.map Placement.spot =
      (List.range g.nodes.size).map (spotAt settings (orderInput g)) := by
  refine List.ext_getElem (by simp [size_placements]) fun i hi hi' => ?_
  simp [ofGraph, Placement.spot, spotAt]

/-- **Nodes of alike graphs are drawn at the same places**, position by position. -/
theorem spots_congr (settings : LayoutSettings) (h : Graph.Alike g g') :
    (ofGraph settings g).placements.toList.map Placement.spot =
      (ofGraph settings g').placements.toList.map Placement.spot := by
  rw [spots_ofGraph, spots_ofGraph, h.size_nodes, h.orderInput_eq]

theorem sweeps_congr (settings : LayoutSettings) (h : Graph.Alike g g') :
    (ofGraph settings g).sweeps = (ofGraph settings g').sweeps := by
  simp only [ofGraph, h.orderInput_eq]

end Layout

/-! ## Selections -/

namespace Graph

/-- **A graph in step with all its tables.** -/
structure InStep (g : Graph) : Prop where
  consistent : g.Consistent
  mirrored : g.Mirrored
  named : g.Named

theorem inStep_ofParts (nodes : List Node) (edges : List Edge) : (ofParts nodes edges).InStep :=
  ⟨consistent_ofParts nodes edges, mirrored_ofParts nodes edges, named_ofParts nodes edges⟩

/-- The end of a link at which a search in a direction comes to it. -/
def nearAt (direction : Direction) (l : Option ℕ × Option ℕ × EdgeKind) : Option ℕ :=
  match direction with
  | .ancestors => l.2.1
  | .descendants => l.1

/-- The end of a link to which a search in a direction goes on. -/
def farAt (direction : Direction) (l : Option ℕ × Option ℕ × EdgeKind) : Option ℕ :=
  match direction with
  | .ancestors => l.1
  | .descendants => l.2.1

theorem farPositions_eq_joints (g : Graph) (direction : Direction) (i : ℕ) :
    g.farPositions direction i =
      ((g.joints.filter fun l => nearAt direction l = some i).filterMap
        (farAt direction)).reverse := by
  rw [joints, List.map_map, List.filter_map, List.filterMap_map]
  cases direction <;> rfl

/-- The table of names holds positions of nodes. -/
theorem InStep.lt_of_namePositions (hg : g.InStep) {name : String}
    (hj : g.namePositions[name]? = some j) : j < g.nodes.size := by
  rw [hg.named name, List.findIdx?_eq_some_iff_getElem] at hj
  obtain ⟨hlt, -⟩ := hj
  simpa using hlt

/-- A name finds the node at the position that the table has for it. -/
theorem InStep.idForName?_eq (hg : g.InStep) (name : String) :
    g.idForName? name = g.namePositions[name]?.map g.idAt := by
  rw [idForName?]
  cases hj : g.namePositions[name]? with
  | none => rfl
  | some j => exact getElem?_nodes (hg.lt_of_namePositions hj)

/-- What a term selects, by position. -/
theorem InStep.mem_select_term_iff (hg : g.InStep) (t : Term) (hi : i < g.nodes.size) :
    g.idAt i ∈ t.select g ↔ ∃ j, g.namePositions[t.name]? = some j ∧ ∃ direction n,
      Walk (fun u w => w ∈ g.neighbours direction u) j i n ∧ (t.bound direction).Allows n := by
  rw [t.mem_select_iff_path hg.consistent hg.mirrored, hg.idForName?_eq]
  simp only [Option.map_eq_some_iff, exists_exists_and_eq_and]
  refine exists_congr fun j => and_congr_right fun hj => ?_
  refine exists_congr fun direction => exists_congr fun n => and_congr_left fun _ => ?_
  have hjd := hg.consistent.positionOf?_idAt (hg.lt_of_namePositions hj)
  have hid := hg.consistent.positionOf?_idAt hi
  exact (hg.mirrored.walk_neighbours_iff hg.consistent hjd hid).symm

namespace Alike

theorem neighbours_eq (h : Alike g g') (hg : g.InStep) (hg' : g'.InStep) (direction : Direction) :
    g.neighbours direction = g'.neighbours direction := by
  funext i
  rw [hg.mirrored.rows, hg'.mirrored.rows, farPositions_eq_joints, farPositions_eq_joints, h.joints]

theorem namePositions_eq (h : Alike g g') (hg : g.InStep) (hg' : g'.InStep) (name : String) :
    g.namePositions[name]? = g'.namePositions[name]? := by
  have hfirst : ∀ g : Graph, g.nodes.toList.findIdx? (·.displayName == name) =
      (g.nodes.toList.map Node.displayName).findIdx? (· == name) := by
    intro g
    rw [List.findIdx?_map]
    rfl
  rw [hg.named, hg'.named, hfirst, hfirst, h.names]

/-- **Nodes of alike graphs are selected alike**, position by position. -/
theorem mem_select_iff (h : Alike g g') (hg : g.InStep) (hg' : g'.InStep) (selector : Selector)
    (hi : i < g.nodes.size) :
    g.idAt i ∈ selector.select g ↔ g'.idAt i ∈ selector.select g' := by
  have hi' : i < g'.nodes.size := h.size_nodes ▸ hi
  cases selector with
  | all =>
    have hmem : ∀ {g : Graph}, g.InStep → i < g.nodes.size → g.idAt i ∈ g.nodeIds := fun hg hi =>
      hg.consistent.positions.exists_iff_mem.1 ⟨i, hg.consistent.positionOf?_idAt hi⟩
    rw [Selector.mem_select_all, Selector.mem_select_all]
    exact iff_of_true (hmem hg hi) (hmem hg' hi')
  | terms ts =>
    rw [Selector.mem_select_terms, Selector.mem_select_terms]
    refine exists_congr fun t => and_congr_right fun _ => ?_
    rw [hg.mem_select_term_iff t hi, hg'.mem_select_term_iff t hi', h.namePositions_eq hg hg']
    simp only [h.neighbours_eq hg hg']

end Alike

end Graph

end DataLineage
