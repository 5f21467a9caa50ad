/-!
# Ranks

The rank of a node is the number of edges on the longest path that ends at it. Nodes leave a queue
in an order in which each comes after all its predecessors; a node joins the queue when the last of
its predecessors has left.

* `Ranking.size_ranks_run`: a run keeps one rank for each node.
-/

namespace DataLineage

/-- The neighbours of each node along the edges that count for ranks; a neighbour stands in the list
once for each edge. -/
structure Adjacency where
  successors : Array (List Nat)
  predecessors : Array (List Nat)
  deriving Repr, Inhabited

namespace Adjacency

/-- The neighbours along these edges among `n` nodes, in the order of the edges. -/
def ofEdges (n : Nat) (edges : List (Nat × Nat)) : Adjacency :=
  edges.foldl (fun a edge =>
    ⟨a.successors.modify edge.1 (· ++ [edge.2]), a.predecessors.modify edge.2 (· ++ [edge.1])⟩)
    ⟨Array.replicate n [], Array.replicate n []⟩

def after (a : Adjacency) (v : Nat) : List Nat := (a.successors[v]?).getD []

def before (a : Adjacency) (v : Nat) : List Nat := (a.predecessors[v]?).getD []

end Adjacency

/-- The state of the ranking. -/
structure Ranking where
  /-- The nodes whose predecessors have all left, the next to leave first. -/
  queue : List Nat
  /-- How many edges from predecessors that have not left each node still waits for. -/
  waiting : Array Int
  /-- The longest path into each node found so far. -/
  ranks : Array Nat
  /-- The nodes that have left the queue, the last first. -/
  settled : List Nat := []
  deriving Repr, Inhabited

namespace Ranking

/-- The start: the nodes without predecessors wait in the queue, in order. -/
def start (a : Adjacency) : Ranking where
  queue := (List.range a.successors.size).filter fun v => (a.before v).isEmpty
  waiting := a.predecessors.map fun before => (before.length : Int)
  ranks := Array.replicate a.successors.size 0

/-- Follows an edge out of a node of rank `rank` that leaves the queue. -/
def relax (rank : Nat) (s : Ranking) (target : Nat) : Ranking :=
  let waiting := s.waiting.modify target (· - 1)
  { s with
    waiting
    ranks := s.ranks.modify target (max · (rank + 1))
    queue := if waiting[target]? = some 0 then s.queue ++ [target] else s.queue }

/-- Takes the next node from the queue and follows the edges out of it. -/
def step (a : Adjacency) (s : Ranking) : Ranking :=
  match s.queue with
  | [] => s
  | v :: queue =>
    (a.after v).foldl (relax ((s.ranks[v]?).getD 0)) { s with queue, settled := v :: s.settled }

/-- The state after a number of steps. -/
def run (a : Adjacency) : Nat → Ranking
  | 0 => start a
  | k + 1 => step a (run a k)

theorem size_ranks_foldl_relax (rank : Nat) (targets : List Nat) (s : Ranking) :
    (targets.foldl (relax rank) s).ranks.size = s.ranks.size := by
  induction targets generalizing s with
  | nil => rfl
  | cons target targets ih => rw [List.foldl_cons, ih]; simp [relax]

/-- A run keeps one rank for each node. -/
theorem size_ranks_run (a : Adjacency) (k : Nat) : (run a k).ranks.size = a.successors.size := by
  induction k with
  | zero => simp [run, start]
  | succ k ih =>
    rw [run, step]
    split
    · exact ih
    · rw [size_ranks_foldl_relax]; exact ih

end Ranking

/-- The rank of each node. Each node leaves the queue once, so as many steps as there are nodes
settle all of them. -/
def Adjacency.ranks (a : Adjacency) : Array Nat := (Ranking.run a a.successors.size).ranks

end DataLineage
