/-!
# Edges that close cycles

A depth-first search that follows the edges of each node in order. An edge into a node that is still
being searched closes a cycle; the layout ranks nodes without these edges.

* `white_paint_lt`: painting a white node leaves fewer white ones, so the search ends.
-/

namespace DataLineage.CycleEdges

/-- How far the search is with a node: not met, being searched, or done. -/
inductive Colour where
  | white
  | grey
  | black
  deriving DecidableEq, Repr, Inhabited

/-- An edge out of a node: the position of its target and its own position. -/
abbrev Out := Nat × Nat

/-- The colours of the nodes and the positions of the edges found to close a cycle, the last first. -/
structure State where
  colours : Array Colour
  closing : List Nat := []

namespace State

def paint (s : State) (v : Nat) (colour : Colour) : State :=
  { s with colours := s.colours.setIfInBounds v colour }

/-- The number of nodes not met yet. -/
def white (s : State) : Nat := s.colours.count .white

end State

/-- The nodes being searched, the innermost first, each with the edges out of it still to follow. -/
abbrev Stack := List (Nat × List Out)

/-- The work a stack holds without meeting new nodes. -/
def Stack.work : Stack → Nat
  | [] => 0
  | (_, outs) :: rest => outs.length + 1 + work rest

theorem white_paint_le (s : State) (v : Nat) (colour : Colour) (h : colour ≠ .white) :
    (s.paint v colour).white ≤ s.white := by
  unfold State.paint State.white Array.setIfInBounds
  split
  · have : (colour == Colour.white) = false := by cases colour <;> simp_all
    simp [Array.count_set, this]
  · exact Nat.le_refl _

/-- Painting a white node leaves fewer white ones. -/
theorem white_paint_lt {s : State} {v : Nat} (colour : Colour) (h : colour ≠ .white)
    (hv : s.colours[v]? = some .white) : (s.paint v colour).white < s.white := by
  obtain ⟨hi, hv⟩ := Array.getElem?_eq_some_iff.1 hv
  have hpos : 0 < s.colours.count .white := Array.count_pos_iff.2 (hv ▸ Array.getElem_mem hi)
  have hc : (colour == Colour.white) = false := by cases colour <;> simp_all
  simp only [State.paint, State.white, Array.setIfInBounds, dif_pos hi, Array.count_set, hc, hv,
    beq_self_eq_true, if_true]
  exact Nat.sub_lt hpos Nat.one_pos

/-- Searches until the stack is empty. The next edge of the innermost node leads on to a white
target, is noted when its target is grey, and is passed over when its target is black. -/
def search (outgoing : Array (List Out)) (s : State) : Stack → State
  | [] => s
  | (v, []) :: stack => search outgoing (s.paint v .black) stack
  | (v, (target, edge) :: rest) :: stack =>
    match _h : s.colours[target]? with
    | some .white =>
      search outgoing (s.paint target .grey)
        ((target, (outgoing[target]?).getD []) :: (v, rest) :: stack)
    | some .grey => search outgoing { s with closing := edge :: s.closing } ((v, rest) :: stack)
    | _ => search outgoing s ((v, rest) :: stack)
termination_by stack => (s.white, stack.work)
decreasing_by
  · rcases Nat.lt_or_eq_of_le (white_paint_le s v .black (by decide)) with h | h
    · exact Prod.Lex.left _ _ h
    · rw [h]
      exact Prod.Lex.right _ (by simp [Stack.work])
  · exact Prod.Lex.left _ _ (white_paint_lt .grey (by decide) _h)
  · exact Prod.Lex.right _ (by simp [Stack.work])
  · exact Prod.Lex.right _ (by simp [Stack.work])

/-- Searches from a root that is still white. -/
def searchRoot (outgoing : Array (List Out)) (s : State) (root : Nat) : State :=
  if s.colours[root]? = some .white then
    search outgoing (s.paint root .grey) [(root, (outgoing[root]?).getD [])]
  else s

/-- The number of edges into each node. -/
def inDegrees (outgoing : Array (List Out)) : Array Nat :=
  outgoing.foldl (fun degrees outs =>
    outs.foldl (fun degrees out => degrees.modify out.1 (· + 1)) degrees)
    (Array.replicate outgoing.size 0)

/-- The order in which nodes become roots: those without incoming edges first, then all. -/
def roots (outgoing : Array (List Out)) : List Nat :=
  let degrees := inDegrees outgoing
  (List.range outgoing.size).filter (fun v => degrees[v]? == some 0) ++ List.range outgoing.size

/-- The positions of the edges that close a cycle, the last found first. -/
def find (outgoing : Array (List Out)) : List Nat :=
  ((roots outgoing).foldl (searchRoot outgoing)
    { colours := Array.replicate outgoing.size .white }).closing

end DataLineage.CycleEdges
