import DataLineage.Project.Snapshot

/-!
# Settings of the lineage engine

How node ids are made, which source models read by default, and the measures of the layout. Every
setting has a default.
-/

namespace DataLineage

/-- How a record's node id is made. -/
inductive IdScheme where
  /-- The record's name. -/
  | name
  /-- The record's type and name. -/
  | typed
  deriving DecidableEq, Repr, Inhabited

namespace IdScheme

def tag : IdScheme → String
  | name => "name"
  | typed => "typed"

def all : List IdScheme := [name, typed]

/-- The scheme with exactly this tag. -/
def ofTag? (tag : String) : Option IdScheme := all.find? fun s => s.tag == tag

def nodeId (scheme : IdScheme) (record : ObjectRecord) : String :=
  match scheme with
  | name => record.name
  | typed => record.type.tag ++ ":" ++ record.name

end IdScheme

structure BuildOptions where
  idScheme : IdScheme := .name
  defaultSource : Option String := none
  deriving DecidableEq, Repr, Inhabited

/-- The options with a project's default source where they name none of their own. -/
def BuildOptions.withProjectDefaults (o : BuildOptions) (d : ProjectDefaults) : BuildOptions :=
  { o with defaultSource := o.defaultSource.or d.sourceName }

/-- The size of a node as drawn. -/
structure NodeSize where
  width : Float := 200
  height : Float := 60
  deriving BEq, Inhabited

/-- The gaps between neighbouring ranks and between neighbours within a rank. -/
structure Spacing where
  rankGap : Float := 80
  orderGap : Float := 30
  deriving BEq, Inhabited

/-- The most ordering sweeps any settings can ask for. -/
def maxSweeps : Nat := 4

structure LayoutSettings where
  nodeSize : NodeSize := {}
  spacing : Spacing := {}
  maxSweeps : Nat := DataLineage.maxSweeps
  deriving BEq, Inhabited

namespace LayoutSettings

/-- How many ordering sweeps a layout may make. -/
def sweepBudget (s : LayoutSettings) : Nat := min s.maxSweeps DataLineage.maxSweeps

/-- The four measures under their names, in the order they are checked. -/
def measures (s : LayoutSettings) : List (String × Float) :=
  [("node_size.width", s.nodeSize.width), ("node_size.height", s.nodeSize.height),
    ("spacing.rank_gap", s.spacing.rankGap), ("spacing.order_gap", s.spacing.orderGap)]

/-- The distance from one rank to the next. -/
def column (s : LayoutSettings) : Float := s.nodeSize.width + s.spacing.rankGap

/-- The distance from one place within a rank to the next. -/
def row (s : LayoutSettings) : Float := s.nodeSize.height + s.spacing.orderGap

end LayoutSettings

structure Settings where
  build : BuildOptions := {}
  layout : LayoutSettings := {}
  deriving BEq, Inhabited

end DataLineage
