import DataLineage.Proofs.GraphWalks

/-!
# The neighbour lists of a graph

A graph keeps, for each node and each direction, the positions next to it. They are those at the
other ends of its edges, once for each edge and the newest first.

* `Graph.mirrored_ofParts`: what the lists hold, in every graph.
* `Graph.Mirrored.walk_neighbours_iff`: a search that goes from list to list walks along the edges.
-/

namespace DataLineage

/-- The end of an edge at which a search in a direction comes to it. -/
def Edge.near (direction : Direction) (e : Edge) : String :=
  match direction with
  | .ancestors => e.target
  | .descendants => e.source

/-- The end of an edge to which a search in a direction goes on. -/
def Edge.far (direction : Direction) (e : Edge) : String :=
  match direction with
  | .ancestors => e.source
  | .descendants => e.target

namespace Graph

variable {g : Graph} {a b : String} {i j k n : ℕ} {direction : Direction}

/-- The positions at the far ends of a node's edges, that of the newest edge first. -/
def farPositions (g : Graph) (direction : Direction) (i : ℕ) : List ℕ :=
  ((g.edges.toList.filter fun e => g.positionOf? (e.near direction) = some i).filterMap fun e =>
    g.positionOf? (e.far direction)).reverse

/-- **The neighbour lists follow the edges.** -/
structure Mirrored (g : Graph) : Prop where
  size_outgoing : g.outgoing.size = g.nodes.size
  size_incoming : g.incoming.size = g.nodes.size
  rows : ∀ direction i, g.neighbours direction i = g.farPositions direction i

theorem mirrored_empty : empty.Mirrored := by
  refine ⟨rfl, rfl, ?_⟩
  intro direction i
  cases direction <;> rfl

/-- A new node has no neighbours, as long as there are no edges. -/
theorem Mirrored.addNode (h : g.Mirrored) (hnone : g.edges = #[]) (node : Node) :
    (g.addNode node).Mirrored := by
  have hedges : (g.addNode node).edges = #[] := (edges_addNode g node).trans hnone
  have hfar : ∀ direction i, (g.addNode node).farPositions direction i = [] := by
    intro direction i
    simp [farPositions, hedges]
  have hold : ∀ direction i, g.neighbours direction i = [] := by
    intro direction i
    rw [h.rows, farPositions, hnone]
    rfl
  have hpush : ∀ (rows : Array (List ℕ)) (i : ℕ), (rows[i]?).getD [] = [] →
      ((rows.push [])[i]?).getD [] = [] := by
    intro rows i hi
    rw [Array.getElem?_push]
    split
    · rfl
    · exact hi
  by_cases hmem : g.positions.contains node.id
  · rwa [Graph.addNode, if_pos hmem]
  · refine ⟨?_, ?_, ?_⟩
    · rw [Graph.addNode, if_neg hmem]
      simp [h.size_outgoing]
    · rw [Graph.addNode, if_neg hmem]
      simp [h.size_incoming]
    · intro direction i
      rw [hfar, Graph.addNode, if_neg hmem]
      have hi := hold direction i
      cases direction with
      | ancestors => exact hpush g.incoming i hi
      | descendants => exact hpush g.outgoing i hi

theorem getD_modify_cons {rows : Array (List ℕ)} (hi : i < rows.size) :
    ((rows.modify i (j :: ·))[k]?).getD [] =
      if i = k then j :: (rows[k]?).getD [] else (rows[k]?).getD [] := by
  rw [Array.getElem?_modify]
  split
  next hik =>
    subst hik
    rw [Array.getElem?_eq_getElem hi]
    rfl
  next => rfl

/-- One more edge puts its far end first among those of its near end. -/
theorem farPositions_push (direction : Direction) (g : Graph) (e : Edge)
    (outgoing incoming : Array (List ℕ)) (hnear : g.positionOf? (e.near direction) = some i)
    (hfar : g.positionOf? (e.far direction) = some j) :
    ({ g with edges := g.edges.push e, outgoing, incoming } : Graph).farPositions direction k =
      if i = k then j :: g.farPositions direction k else g.farPositions direction k := by
  change ((((g.edges.push e).toList.filter fun e =>
    g.positionOf? (e.near direction) = some k).filterMap fun e =>
      g.positionOf? (e.far direction)).reverse) = _
  rw [Array.toList_push, List.filter_append, List.filterMap_append, List.reverse_append,
    ← farPositions]
  by_cases hik : i = k
  · simp [hnear, hfar, hik]
  · simp [hnear, hik]

theorem Mirrored.addEdge (hg : g.Consistent) (h : g.Mirrored) (taken : Std.TreeSet String)
    (edge : Edge) : (g.addEdge taken edge).1.Mirrored := by
  unfold Graph.addEdge
  split
  next i j hi hj =>
    set id' := if taken.contains edge.id then freeId edge.id taken else edge.id
    refine ⟨by simpa using h.size_outgoing, by simpa using h.size_incoming, ?_⟩
    intro direction k
    have hk := h.rows direction k
    cases direction with
    | ancestors =>
      have hlt : j < g.incoming.size := by
        rw [h.size_incoming]
        exact hg.positionOf?_lt hj
      refine (getD_modify_cons hlt).trans ?_
      rw [show (g.incoming[k]?).getD [] = _ from hk]
      exact (farPositions_push .ancestors g { edge with id := id' } _ _ hj hi).symm
    | descendants =>
      have hlt : i < g.outgoing.size := by
        rw [h.size_outgoing]
        exact hg.positionOf?_lt hi
      refine (getD_modify_cons hlt).trans ?_
      rw [show (g.outgoing[k]?).getD [] = _ from hk]
      exact (farPositions_push .descendants g { edge with id := id' } _ _ hi hj).symm
  next => exact h

/-- **Every graph's neighbour lists follow its edges.** -/
theorem mirrored_ofParts (nodes : List Node) (edges : List Edge) :
    (ofParts nodes edges).Mirrored :=
  ofParts_induction mirrored_empty (fun _ node hnone h => h.addNode hnone node)
    (fun _ taken edge hg h => h.addEdge hg taken edge) nodes edges

theorem Mirrored.mem_neighbours_iff (h : g.Mirrored) :
    j ∈ g.neighbours direction i ↔ ∃ e ∈ g.edges.toList,
      g.positionOf? (e.near direction) = some i ∧ g.positionOf? (e.far direction) = some j := by
  simp only [h.rows, farPositions, List.mem_reverse, List.mem_filterMap, List.mem_filter,
    decide_eq_true_eq, and_assoc]

/-! ## Walks from list to list -/

/-- A walk from a start in a direction, along the edges to descendants or against them to
ancestors. -/
def Path (g : Graph) (direction : Direction) (start a : String) (n : ℕ) : Prop :=
  match direction with
  | .ancestors => Walk (Joins g.edges.toList) a start n
  | .descendants => Walk (Joins g.edges.toList) start a n

/-- **A search that goes from list to list walks along the edges.** -/
theorem Mirrored.walk_neighbours_iff (hg : g.Consistent) (h : g.Mirrored)
    (ha : g.positionOf? a = some i) (hb : g.positionOf? b = some j) :
    Walk (fun u w => w ∈ g.neighbours direction u) i j n ↔ g.Path direction a b n := by
  cases direction with
  | ancestors =>
    have hstep : (fun u w => w ∈ g.neighbours .ancestors u) =
        fun u w => JoinsAt g g.edges.toList w u := by
      funext u w
      rw [h.mem_neighbours_iff, JoinsAt]
      simp only [Edge.near, Edge.far, and_comm]
    rw [hstep, Path, ← hg.walk_iff hb ha]
    constructor
    · exact Walk.reverse
    · exact Walk.reverse
  | descendants =>
    have hstep : (fun u w => w ∈ g.neighbours .descendants u) = JoinsAt g g.edges.toList := by
      funext u w
      rw [h.mem_neighbours_iff]
      rfl
    rw [hstep, Path, hg.walk_iff ha hb]

/-- Neighbours are positions of nodes. -/
theorem Mirrored.neighbour_lt (hg : g.Consistent) (h : g.Mirrored)
    (hj : j ∈ g.neighbours direction i) : j < g.nodes.size := by
  obtain ⟨e, -, -, hfar⟩ := h.mem_neighbours_iff.1 hj
  exact hg.positionOf?_lt hfar

end Graph

end DataLineage
