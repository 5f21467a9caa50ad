import DataLineage.Project.Object
import DataLineage.Digest.Sha256
import Std.Data.TreeMap

/-!
# The registry of a project's objects

A registry holds object records under their names and remembers the order in which the names first
came. Graphs and layouts take their order from here.

* `Registry.records_insert`, `Registry.records_remove`: what the two edits do to the list of records.
-/

namespace DataLineage

/-- The records in order of first insertion, and the position of each name among them. -/
structure Registry where
  records : Array ObjectRecord := #[]
  positions : Std.TreeMap String Nat := ∅
  deriving Inhabited

namespace Registry

def empty : Registry := {}

/-- Adds a record at the end, or in the place of the record of that name, which it returns. -/
def insert (r : Registry) (record : ObjectRecord) : Registry × Option ObjectRecord :=
  match r.positions[record.name]? with
  | some i => ({ r with records := r.records.setIfInBounds i record }, r.records[i]?)
  | none =>
    (⟨r.records.push record, r.positions.insert record.name r.records.size⟩, none)

/-- Takes the record of that name out, if there is one; later records move up by one. -/
def remove (r : Registry) (name : String) : Registry × Option ObjectRecord :=
  match r.positions[name]? with
  | some i =>
    (⟨r.records.eraseIdxIfInBounds i,
      (r.positions.erase name).map fun _ j => if i < j then j - 1 else j⟩, r.records[i]?)
  | none => (r, none)

def get? (r : Registry) (name : String) : Option ObjectRecord :=
  r.positions[name]?.bind fun i => r.records[i]?

def contains (r : Registry) (name : String) : Bool := r.positions.contains name

/-- Inserts the records one after the other. -/
def extend (r : Registry) (records : List ObjectRecord) : Registry :=
  records.foldl (fun r record => (r.insert record).1) r

/-- The registry of these records; a later record replaces an earlier one of its name in place. -/
def ofList (records : List ObjectRecord) : Registry := empty.extend records

def toList (r : Registry) : List ObjectRecord := r.records.toList

def names (r : Registry) : List String := r.toList.map (·.name)

def size (r : Registry) : Nat := r.records.size

def isEmpty (r : Registry) : Bool := r.records.isEmpty

/-- Registries are equal when both their records and their positions are. -/
instance : BEq Registry := ⟨fun r s => r.records == s.records && r.positions == s.positions⟩

theorem records_insert (r : Registry) (record : ObjectRecord) :
    (r.insert record).1.records =
      match r.positions[record.name]? with
      | some i => r.records.setIfInBounds i record
      | none => r.records.push record := by
  unfold insert; split <;> simp_all

theorem records_remove (r : Registry) (name : String) :
    (r.remove name).1.records =
      match r.positions[name]? with
      | some i => r.records.eraseIdxIfInBounds i
      | none => r.records := by
  unfold remove; split <;> simp_all

end Registry

end DataLineage
