import DataLineage.Placement.Ranks

/-!
# Order within ranks

The nodes of a rank stand one below the other. A sweep goes through the ranks forth and back and
sorts each by the mean place of the neighbours in the rank it comes from, so that edges cross less.
Isolated nodes stay at the end of their rank, and ties fall back to the order of the graph.

* `Arranged.sweeps_le`: no more sweeps are made than allowed.
-/

namespace DataLineage

/-- What the ordering of nodes depends on. -/
structure OrderInput where
  ranks : Array Nat
  adjacency : Adjacency
  isolated : Array Bool
  deriving Inhabited

namespace OrderInput

def rankOf (input : OrderInput) (v : Nat) : Nat := (input.ranks[v]?).getD 0

def isIsolated (input : OrderInput) (v : Nat) : Bool := (input.isolated[v]?).getD false

/-- The number of ranks in use. -/
def rankCount (input : OrderInput) : Nat :=
  if input.ranks.isEmpty then 0 else input.ranks.foldl max 0 + 1

end OrderInput

/-- The nodes of each rank in order, and the place of each node in its rank. -/
structure Arrangement where
  columns : Array (List Nat)
  places : Array Nat
  deriving DecidableEq, Repr, Inhabited

/-- A key that orders floating-point numbers from the least to the greatest; negative zero comes
before zero, and NaNs stand outside the infinities. -/
def totalOrderKey (x : Float) : Int :=
  let bits := x.toBits.toNat
  if bits < Nat.pow 2 63 then bits else Nat.pow 2 63 - 1 - (bits : Int)

/-- What a node is sorted by: isolated ones last, then the mean place, then the graph's order. -/
structure SortKey where
  isolated : Bool
  mean : Float
  node : Nat

/-- Whether a key may stand before another. -/
def SortKey.le (a b : SortKey) : Bool :=
  if a.isolated != b.isolated then b.isolated
  else
    let x := totalOrderKey a.mean
    let y := totalOrderKey b.mean
    if x != y then x < y else a.node ≤ b.node

namespace Arrangement

def placeOf (a : Arrangement) (v : Nat) : Nat := (a.places[v]?).getD 0

def column (a : Arrangement) (r : Nat) : List Nat := (a.columns[r]?).getD []

/-- Gives the nodes of a column their places in it. -/
def writePlaces (places : Array Nat) (column : List Nat) : Array Nat :=
  column.zipIdx.foldl (fun places (v, i) => places.setIfInBounds v i) places

/-- The arrangement before any sweep: each rank in the graph's order, isolated nodes last. -/
def initial (input : OrderInput) : Arrangement :=
  let nodes := List.range input.ranks.size
  let sorted := nodes.filter (fun v => !input.isIsolated v) ++ nodes.filter input.isIsolated
  let columns := sorted.foldl (fun columns v => columns.modify (input.rankOf v) (· ++ [v]))
    (Array.replicate input.rankCount [])
  ⟨columns, columns.foldl writePlaces (Array.replicate input.ranks.size 0)⟩

/-- The mean place of the neighbours that stand in the rank next to a node's own; its own place when
there are none. -/
def meanPlace (input : OrderInput) (a : Arrangement) (neighbours : List Nat) (beside v : Nat) :
    Float :=
  let places := (neighbours.filter fun u => input.rankOf u == beside).map a.placeOf
  if places.isEmpty then Float.ofNat (a.placeOf v)
  else Float.ofNat (places.foldl (· + ·) 0) / Float.ofNat places.length

/-- The keys of a rank's nodes, by their neighbours in the rank `beside`. -/
def sortKeys (input : OrderInput) (a : Arrangement) (neighbours : Nat → List Nat)
    (r beside : Nat) : List SortKey :=
  (a.column r).map fun v =>
    ⟨input.isIsolated v, a.meanPlace input (neighbours v) beside v, v⟩

/-- Sorts a rank by its neighbours in the rank `beside`, and tells whether anything moved. -/
def reorder (input : OrderInput) (neighbours : Nat → List Nat) (r beside : Nat)
    (a : Arrangement) : Arrangement × Bool :=
  let sorted := ((a.sortKeys input neighbours r beside).mergeSort SortKey.le).map (·.node)
  (⟨a.columns.setIfInBounds r sorted, writePlaces a.places sorted⟩, sorted != a.column r)

/-- Runs a reordering over some ranks, and tells whether any of them moved. -/
def reorderAll (f : Nat → Arrangement → Arrangement × Bool) (ranks : List Nat)
    (a : Arrangement) : Arrangement × Bool :=
  ranks.foldl (fun s r =>
    let (a, moved) := f r s.1
    (a, s.2 || moved)) (a, false)

/-- One sweep: forth by the predecessors in the rank before, back by the successors in the rank
after. -/
def sweep (input : OrderInput) (a : Arrangement) : Arrangement × Bool :=
  let forth := List.range' 1 (input.rankCount - 1)
  let back := (List.range (input.rankCount - 1)).reverse
  let (a, movedForth) :=
    a.reorderAll (fun r => reorder input input.adjacency.before r (r - 1)) forth
  let (a, movedBack) :=
    a.reorderAll (fun r => reorder input input.adjacency.after r (r + 1)) back
  (a, movedForth || movedBack)

end Arrangement

/-- An arrangement and the number of sweeps that led to it. -/
structure Arranged where
  arrangement : Arrangement
  sweeps : Nat
  deriving Inhabited

namespace Arranged

/-- Sweeps until nothing moves or the budget is spent. -/
def improve (input : OrderInput) : Nat → Arrangement → Arranged
  | 0, a => ⟨a, 0⟩
  | budget + 1, a =>
    match a.sweep input with
    -- a sweep that moves nothing is counted too
    | (a, false) => ⟨a, 1⟩
    | (a, true) =>
      let rest := improve input budget a
      ⟨rest.arrangement, rest.sweeps + 1⟩

/-- The order of the nodes within their ranks; a graph without nodes takes no sweep. -/
def ofInput (input : OrderInput) (budget : Nat) : Arranged :=
  if input.ranks.isEmpty then ⟨⟨#[], #[]⟩, 0⟩ else improve input budget (.initial input)

/-- No more sweeps are made than allowed. -/
theorem sweeps_le (input : OrderInput) (budget : Nat) (a : Arrangement) :
    (improve input budget a).sweeps ≤ budget := by
  induction budget generalizing a with
  | zero => exact Nat.le_refl 0
  | succ k ih =>
    unfold improve
    split
    · exact Nat.le_add_left ..
    · exact Nat.succ_le_succ (ih _)

end Arranged

end DataLineage
