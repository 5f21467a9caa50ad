import DataLineage.Project.Fields
import DataLineage.Yaml.Decode

/-!
# Snapshots as YAML

How a project document reads as YAML. An empty document is an empty snapshot.
-/

namespace DataLineage

namespace Yaml

def readType : Placed → Read ObjectType := readVariant ObjectType.ofTag? ObjectType.tags

def readObjectRecord : Placed → Read ObjectRecord :=
  readRecord (ObjectRecord.recordType readText readType (readList readText))

def readDefaults : Placed → Read ProjectDefaults :=
  readRecord (ProjectDefaults.recordType (readOption readText))

def readSnapshot : Placed → Read ProjectSnapshot :=
  readRecord (ProjectSnapshot.recordType readDefaults (readList readObjectRecord))

end Yaml

namespace ProjectSnapshot

/-- Reads a snapshot from YAML text. -/
def ofYaml (text : String) : Except Yaml.Fault ProjectSnapshot := Yaml.read Yaml.readSnapshot text

end ProjectSnapshot

end DataLineage
