import DataLineage.Graph.Basic
import DataLineage.Selection.Generations

/-!
# What a node reaches

Breadth-first search from a node along one direction, up to a number of generations. A node enters
the queue at most once, so the search ends on cyclic graphs too.

* `length_enqueue`: the nodes a step lets into the queue are those it takes from the unseen ones.
-/

namespace DataLineage

/-- A node and the number of edges a search took to it. -/
structure Reached where
  id : String
  depth : Nat
  deriving DecidableEq, Repr, Inhabited

namespace Reach

/-- The number of nodes that are not marked as seen. -/
def unseen (seen : Array Bool) : Nat := seen.count false

/-- Marks the unseen ones of some positions and returns these, in order. -/
def enqueue (seen : Array Bool) : List Nat → Array Bool × List Nat
  | [] => (seen, [])
  | v :: rest =>
    if seen[v]? = some false then
      let (seen, fresh) := enqueue (seen.setIfInBounds v true) rest
      (seen, v :: fresh)
    else enqueue seen rest

theorem unseen_mark {seen : Array Bool} {v : Nat} (h : seen[v]? = some false) :
    unseen (seen.setIfInBounds v true) + 1 = unseen seen := by
  obtain ⟨hv, h⟩ := Array.getElem?_eq_some_iff.1 h
  have hpos : 0 < seen.count false := Array.count_pos_iff.2 (h ▸ Array.getElem_mem hv)
  simp [unseen, Array.setIfInBounds, hv, Array.count_set, h]
  omega

/-- What a step lets into the queue, it takes from the unseen nodes. -/
theorem length_enqueue (seen : Array Bool) (vs : List Nat) :
    (enqueue seen vs).2.length + unseen (enqueue seen vs).1 = unseen seen := by
  induction vs generalizing seen with
  | nil => simp [enqueue]
  | cons v rest ih =>
    unfold enqueue
    split
    next h =>
      have := ih (seen.setIfInBounds v true)
      have := unseen_mark h
      simp only [List.length_cons]
      omega
    next => exact ih seen

/-- The positions in the order the search takes them from its queue, each with its depth. The first
in the queue is taken, and its unseen neighbours join at the end. -/
def search (next : Nat → List Nat) (generations : Generations) (seen : Array Bool) :
    List (Nat × Nat) → List (Nat × Nat)
  | [] => []
  | (v, depth) :: queue =>
    if generations.allowsFrom depth then
      (v, depth) :: search next generations (enqueue seen (next v)).1
        (queue ++ (enqueue seen (next v)).2.map (·, depth + 1))
    else (v, depth) :: search next generations seen queue
termination_by queue => unseen seen + queue.length
decreasing_by
  · have := length_enqueue seen (next v)
    simp only [List.length_append, List.length_map, List.length_cons]
    omega
  · simp

end Reach

namespace Graph

/-- The nodes reached from a start node, in the order of the search; none from an unknown start. -/
def reachable (g : Graph) (start : String) (direction : Direction) (generations : Generations) :
    List Reached :=
  match g.positionOf? start with
  | none => []
  | some i =>
    let seen := (Array.replicate g.nodes.size false).setIfInBounds i true
    (Reach.search (g.neighbours direction) generations seen [(i, 0)]).filterMap fun (v, depth) =>
      g.nodes[v]?.map fun node => ⟨node.id, depth⟩

/-- The ids reached from a start node. -/
def reachableIds (g : Graph) (start : String) (direction : Direction)
    (generations : Generations) : Std.TreeSet String :=
  .ofList ((g.reachable start direction generations).map (·.id))

end Graph

end DataLineage
