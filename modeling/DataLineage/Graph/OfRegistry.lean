import DataLineage.Graph.Basic
import DataLineage.Settings.Basic

/-!
# The lineage graph of a registry

Each record is a node. Each distinct dependency name that names a record is an explicit edge, self
references included; a name without a record is dropped and counted, since a project that is being
edited often has some. A model that reads no source gets an inferred edge from the default source.

* `References.size_ofNames`: each distinct name either names a record or is missing.
-/

namespace DataLineage

/-- What the dependency names of one record came to. -/
structure References where
  /-- The names met so far. -/
  seen : Std.TreeSet String := ∅
  /-- The records they name, in order. -/
  found : Array ObjectRecord := #[]
  /-- How many of them name no record. -/
  missing : Nat := 0

namespace References

/-- Looks up one more name; a name met before counts no second time. -/
def add (registry : Registry) (refs : References) (name : String) : References :=
  if refs.seen.contains name then refs
  else
    let seen := refs.seen.insert name
    match registry.get? name with
    | some record => { refs with seen, found := refs.found.push record }
    | none => { refs with seen, missing := refs.missing + 1 }

def ofNames (registry : Registry) (names : List String) : References :=
  names.foldl (add registry) {}

theorem size_add (registry : Registry) (refs : References) (name : String)
    (h : refs.found.size + refs.missing = refs.seen.size) :
    (add registry refs name).found.size + (add registry refs name).missing =
      (add registry refs name).seen.size := by
  unfold add
  split
  next => exact h
  next hn =>
    have hs : (refs.seen.insert name).size = refs.seen.size + 1 := by
      simp [Std.TreeSet.size_insert, hn]
    simp only
    split <;> simp only [Array.size_push] <;> omega

/-- Each distinct name either names a record or is missing. -/
theorem size_ofNames (registry : Registry) (names : List String) :
    (ofNames registry names).found.size + (ofNames registry names).missing =
      (ofNames registry names).seen.size := by
  suffices h : ∀ refs : References, refs.found.size + refs.missing = refs.seen.size →
      (names.foldl (add registry) refs).found.size + (names.foldl (add registry) refs).missing =
        (names.foldl (add registry) refs).seen.size from h {} (by simp)
  induction names with
  | nil => exact fun _ h => h
  | cons name names ih => exact fun refs h => ih _ (size_add registry refs name h)

def readsSource (refs : References) : Bool := refs.found.any fun record => record.type == .source

end References

namespace BuildOptions

/-- The record of the configured default source, if that is a source of the registry. -/
def defaultSourceIn? (o : BuildOptions) (registry : Registry) : Option ObjectRecord :=
  (o.defaultSource.bind registry.get?).filter fun record => record.type == .source

def node (o : BuildOptions) (record : ObjectRecord) : Node :=
  ⟨o.idScheme.nodeId record, record.type, record.name⟩

def edge (o : BuildOptions) (source target : ObjectRecord) (kind : EdgeKind) : Edge :=
  .between (o.idScheme.nodeId source) (o.idScheme.nodeId target) kind

/-- The edge from the default source that a record gets when it reads no source itself. -/
def inferredEdge? (o : BuildOptions) (registry : Registry) (record : ObjectRecord)
    (refs : References) : Option Edge :=
  match o.defaultSourceIn? registry with
  | some source =>
    if record.type.infersDefaultSource && !refs.readsSource && source.name != record.name then
      some (o.edge source record .inferred)
    else none
  | none => none

end BuildOptions

/-- The edges of the records looked at so far, and how many names were dropped. -/
structure EdgeList where
  edges : Array Edge := #[]
  dropped : Nat := 0

/-- Adds the edges into one record: the explicit ones in the order of its names, then the inferred
one. -/
def EdgeList.addRecord (o : BuildOptions) (registry : Registry) (list : EdgeList)
    (record : ObjectRecord) : EdgeList :=
  let refs := References.ofNames registry record.dependsOn
  { edges := list.edges ++ refs.found.map (fun source => o.edge source record .explicit) ++
      (o.inferredEdge? registry record refs).toArray
    dropped := list.dropped + refs.missing }

def EdgeList.ofRegistry (o : BuildOptions) (registry : Registry) : EdgeList :=
  registry.toList.foldl (addRecord o registry) {}

/-- A graph and the number of dependency names left out of it. -/
structure BuiltGraph where
  graph : Graph
  dropped : Nat

def BuiltGraph.ofRegistry (o : BuildOptions) (registry : Registry) : BuiltGraph :=
  let list := EdgeList.ofRegistry o registry
  ⟨.ofParts (registry.toList.map o.node) list.edges.toList, list.dropped⟩

def Graph.ofRegistry (o : BuildOptions) (registry : Registry) : Graph :=
  (BuiltGraph.ofRegistry o registry).graph

end DataLineage
