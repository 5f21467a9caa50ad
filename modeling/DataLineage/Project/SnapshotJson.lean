import DataLineage.Json.Decode
import DataLineage.Json.Tree
import DataLineage.Project.Fields

/-!
# Snapshots as JSON

How a project document reads and is written as JSON.
-/

namespace DataLineage

namespace Json

def readType : Value → Read ObjectType := readVariant ObjectType.ofTag? ObjectType.tags

def readObjectRecord : Value → Read ObjectRecord :=
  readRecord (ObjectRecord.recordType readText readType (readList readText))

def readDefaults : Value → Read ProjectDefaults :=
  readRecord (ProjectDefaults.recordType (readOption readText))

def readSnapshot : Value → Read ProjectSnapshot :=
  readRecord (ProjectSnapshot.recordType readDefaults (readList readObjectRecord))

end Json

namespace ProjectSnapshot

/-- Reads a snapshot from JSON text. -/
def ofJson (text : String) : Except Json.Fault ProjectSnapshot :=
  (Json.Document.ofChars text.toList).read Json.readSnapshot

end ProjectSnapshot

def ObjectRecord.tree (r : ObjectRecord) : Json.Tree :=
  .object [("name", .text r.name), ("type", .text r.type.tag),
    ("depends_on", .array (r.dependsOn.map .text))]

namespace ProjectSnapshot

def tree (s : ProjectSnapshot) : Json.Tree :=
  .object [
    ("defaults", .object [("source_name", (s.defaults.sourceName.map Json.Tree.text).getD .null)]),
    ("objects", .array (s.objects.map ObjectRecord.tree))]

/-- The compact JSON text of a snapshot. -/
def toJson (s : ProjectSnapshot) : String := String.ofList s.tree.write

end ProjectSnapshot

end DataLineage
