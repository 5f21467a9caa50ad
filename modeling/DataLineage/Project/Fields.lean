import DataLineage.Document.Record
import DataLineage.Project.Snapshot

/-!
# Fields of project documents

The records of a project document and their fields, for any format that can read texts, types and
lists. A record's dependency names stand under `depends_on` or `dependency_names`.
-/

namespace DataLineage

/-- The tags of all object types, in order. -/
def ObjectType.tags : List String := all.map tag

/-- The fields of an object record that have been read. -/
structure RecordFields where
  name : Option String := none
  type : Option ObjectType := none
  dependsOn : Option (List String) := none

/-- The fields of the project defaults that have been read. -/
structure DefaultsFields where
  sourceName : Option (Option String) := none

/-- The fields of a snapshot that have been read. -/
structure SnapshotFields where
  defaults : Option ProjectDefaults := none
  objects : Option (List ObjectRecord) := none

/-- The record of some fields; the name and the type have no default. -/
def RecordFields.record (f : RecordFields) : Except String ObjectRecord :=
  match f.name, f.type with
  | none, _ => .error "name"
  | _, none => .error "type"
  | some name, some type => .ok ⟨name, type, f.dependsOn.getD []⟩

def DefaultsFields.defaults (f : DefaultsFields) : ProjectDefaults := ⟨f.sourceName.getD none⟩

def SnapshotFields.snapshot (f : SnapshotFields) : ProjectSnapshot :=
  ⟨f.defaults.getD {}, f.objects.getD []⟩

variable {ν ε : Type}

def ObjectRecord.recordType (text : ν → Except ε String) (type : ν → Except ε ObjectType)
    (texts : ν → Except ε (List String)) : RecordType ν ε RecordFields ObjectRecord where
  name := "ObjectRecord"
  fields := [
    { name := "name"
      isRead := fun s => s.name.isSome
      read := fun v s => (text v).map fun x => { s with name := some x } },
    { name := "type"
      isRead := fun s => s.type.isSome
      read := fun v s => (type v).map fun x => { s with type := some x } },
    { name := "depends_on"
      aliases := ["dependency_names"]
      isRead := fun s => s.dependsOn.isSome
      read := fun v s => (texts v).map fun x => { s with dependsOn := some x } }]
  start := {}
  ofFields := RecordFields.record

def ProjectDefaults.recordType (optionalText : ν → Except ε (Option String)) :
    RecordType ν ε DefaultsFields ProjectDefaults where
  name := "ProjectDefaults"
  fields := [
    { name := "source_name"
      isRead := fun s => s.sourceName.isSome
      read := fun v s => (optionalText v).map fun x => { s with sourceName := some x } }]
  start := {}
  ofFields := fun s => .ok s.defaults

def ProjectSnapshot.recordType (defaults : ν → Except ε ProjectDefaults)
    (objects : ν → Except ε (List ObjectRecord)) :
    RecordType ν ε SnapshotFields ProjectSnapshot where
  name := "ProjectSnapshot"
  fields := [
    { name := "defaults"
      isRead := fun s => s.defaults.isSome
      read := fun v s => (defaults v).map fun x => { s with defaults := some x } },
    { name := "objects"
      isRead := fun s => s.objects.isSome
      read := fun v s => (objects v).map fun x => { s with objects := some x } }]
  start := {}
  ofFields := fun s => .ok s.snapshot

end DataLineage
