import DataLineage.Project.Registry
import DataLineage.Text.Quoted
import Std.Data.TreeSet

/-!
# Project snapshots

What a project document says: the defaults that matter for lineage, and the declared objects in
order. A snapshot becomes a registry when all its names are usable and distinct.

* `ProjectSnapshot.toRegistry_eq_ofList`: where nothing is wrong, the registry is that of the objects.
-/

namespace DataLineage

/-- The project-wide defaults: the source a model reads when it names none. -/
structure ProjectDefaults where
  sourceName : Option String := none
  deriving DecidableEq, Repr, Inhabited

structure ProjectSnapshot where
  defaults : ProjectDefaults := {}
  objects : List ObjectRecord := []
  deriving DecidableEq, Repr, Inhabited

/-- Why a snapshot has no registry. -/
inductive NameFault where
  /-- The name is empty or all blank. -/
  | invalid (name : String)
  /-- An earlier object has the name. -/
  | duplicate (name : String)
  deriving DecidableEq, Repr

def NameFault.message : NameFault → String
  | invalid name => String.join ["Invalid object name: ", quoted name]
  | duplicate name => String.join ["Duplicate object name: ", name]

/-- What is accepted in a name but limits what can be done with it. -/
inductive NameWarning where
  /-- The name holds `+` or `,`, which selectors read as operators. -/
  | selectorOperator
  /-- The name holds `->`, which edge ids use between their ends. -/
  | edgeSeparator
  deriving DecidableEq, Repr

def NameWarning.message : NameWarning → String
  | selectorOperator =>
    "Object name contains a selector operator and cannot be selected by name"
  | edgeSeparator =>
    "Object name contains the edge id separator; its edge ids may be suffixed"

/-- Whether `->` stands somewhere in a text. -/
def hasArrow : List Char → Bool
  | '-' :: '>' :: _ => true
  | _ :: rest => hasArrow rest
  | [] => false

/-- The warnings a name calls for, in order. -/
def nameWarnings (name : String) : List NameWarning :=
  (if name.toList.contains '+' || name.toList.contains ',' then [.selectorOperator] else []) ++
    (if hasArrow name.toList then [.edgeSeparator] else [])

/-- What a look at the names of some objects found: the warnings up to the first fault, each with
its name, and that fault. -/
structure NameReport where
  warnings : List (String × NameWarning) := []
  fault : Option NameFault := none

/-- Looks at the objects in order and ends at the first fault. A blank name is not warned about; a
repeated one is, before it counts as a fault. -/
def checkNames (seen : Std.TreeSet String) : List ObjectRecord → NameReport
  | [] => {}
  | record :: rest =>
    if isBlankText record.name then { fault := some (.invalid record.name) }
    else
      let warnings := (nameWarnings record.name).map (record.name, ·)
      if seen.contains record.name then ⟨warnings, some (.duplicate record.name)⟩
      else
        let report := checkNames (seen.insert record.name) rest
        { report with warnings := warnings ++ report.warnings }

namespace ProjectSnapshot

def nameReport (s : ProjectSnapshot) : NameReport := checkNames ∅ s.objects

/-- The warnings given on the way to the registry, those before a fault included. -/
def warnings (s : ProjectSnapshot) : List (String × NameWarning) := s.nameReport.warnings

def toRegistry (s : ProjectSnapshot) : Except NameFault Registry :=
  match s.nameReport.fault with
  | some fault => .error fault
  | none => .ok (Registry.ofList s.objects)

/-- Where nothing is wrong, the registry is that of the objects. -/
theorem toRegistry_eq_ofList {s : ProjectSnapshot} {r : Registry} (h : s.toRegistry = .ok r) :
    r = Registry.ofList s.objects := by
  unfold toRegistry at h
  split at h
  · cases h
  · exact (Except.ok.inj h).symm

end ProjectSnapshot

end DataLineage
