import DataLineage.Settings.Validity
import DataLineage.Yaml.Decode

/-!
# Settings as YAML

A settings document has the sections `build` and `layout`; every setting that it leaves out keeps its
default. Only the two numbers of a node size, or of a spacing, come together.

* `Settings.ofYaml_blank`: a blank text means the default settings.
-/

namespace DataLineage

/-- Why a text gives no settings. -/
inductive SettingsFault where
  | yaml (f : Yaml.Fault)
  | measure (f : MeasureFault)

/-- The text of a fault; that a text is no YAML is said in the words of its parser. -/
def SettingsFault.message (parser : String) : SettingsFault → String
  | yaml f => "YAML error: " ++ f.message parser
  | measure f => "Configuration error: " ++ f.message

/-- The fields of the build options that have been read. -/
structure BuildFields where
  idScheme : Option IdScheme := none
  defaultSource : Option (Option String) := none

/-- The two numbers of a node size or a spacing that have been read. -/
structure PairFields where
  first : Option Float := none
  second : Option Float := none

/-- The fields of the layout settings that have been read. -/
structure LayoutFields where
  nodeSize : Option NodeSize := none
  spacing : Option Spacing := none
  maxSweeps : Option Nat := none

/-- The sections that have been read. -/
structure SettingsFields where
  build : Option BuildOptions := none
  layout : Option LayoutSettings := none

def BuildFields.options (f : BuildFields) : BuildOptions :=
  let d : BuildOptions := {}
  ⟨f.idScheme.getD d.idScheme, f.defaultSource.getD d.defaultSource⟩

def LayoutFields.settings (f : LayoutFields) : LayoutSettings :=
  let d : LayoutSettings := {}
  ⟨f.nodeSize.getD d.nodeSize, f.spacing.getD d.spacing, f.maxSweeps.getD d.maxSweeps⟩

def SettingsFields.settings (f : SettingsFields) : Settings :=
  let d : Settings := {}
  ⟨f.build.getD d.build, f.layout.getD d.layout⟩

namespace Yaml

def readIdScheme : Placed → Read IdScheme := readVariant IdScheme.ofTag? (IdScheme.all.map IdScheme.tag)

def buildType : RecordType Placed Fault BuildFields BuildOptions where
  name := "BuildOptions"
  fields := [
    { name := "id_scheme"
      isRead := fun s => s.idScheme.isSome
      read := fun v s => (readIdScheme v).map fun x => { s with idScheme := some x } },
    { name := "default_source"
      isRead := fun s => s.defaultSource.isSome
      read := fun v s => (readOption readText v).map fun x => { s with defaultSource := some x } }]
  start := {}
  ofFields := fun s => .ok s.options

/-- A record of two numbers, both of which have to be there. -/
def pairType {α : Type} (name first second : String) (make : Float → Float → α) :
    RecordType Placed Fault PairFields α where
  name := name
  fields := [
    { name := first
      isRead := fun s => s.first.isSome
      read := fun v s => (readDouble v).map fun x => { s with first := some x } },
    { name := second
      isRead := fun s => s.second.isSome
      read := fun v s => (readDouble v).map fun x => { s with second := some x } }]
  start := {}
  ofFields := fun s => match s.first, s.second with
    | none, _ => .error first
    | _, none => .error second
    | some x, some y => .ok (make x y)

def nodeSizeType : RecordType Placed Fault PairFields NodeSize :=
  pairType "NodeSize" "width" "height" NodeSize.mk

def spacingType : RecordType Placed Fault PairFields Spacing :=
  pairType "Spacing" "rank_gap" "order_gap" Spacing.mk

def layoutType : RecordType Placed Fault LayoutFields LayoutSettings where
  name := "LayoutConfig"
  fields := [
    { name := "node_size"
      isRead := fun s => s.nodeSize.isSome
      read := fun v s => (readRecord nodeSizeType v).map fun x => { s with nodeSize := some x } },
    { name := "spacing"
      isRead := fun s => s.spacing.isSome
      read := fun v s => (readRecord spacingType v).map fun x => { s with spacing := some x } },
    { name := "max_sweeps"
      isRead := fun s => s.maxSweeps.isSome
      read := fun v s => (readSize v).map fun x => { s with maxSweeps := some x } }]
  start := {}
  ofFields := fun s => .ok s.settings

def settingsType : RecordType Placed Fault SettingsFields Settings where
  name := "EngineConfig"
  fields := [
    { name := "build"
      isRead := fun s => s.build.isSome
      read := fun v s => (readRecord buildType v).map fun x => { s with build := some x } },
    { name := "layout"
      isRead := fun s => s.layout.isSome
      read := fun v s => (readRecord layoutType v).map fun x => { s with layout := some x } }]
  start := {}
  ofFields := fun s => .ok s.settings

end Yaml

namespace Settings

/-- The settings themselves, if their measures can be used. -/
def checked (s : Settings) : Except SettingsFault Settings :=
  match s.layout.fault? with
  | some f => .error (.measure f)
  | none => .ok s

/-- The settings that a document says, if they are valid. -/
def ofDocument (document : Yaml.Document) : Except SettingsFault Settings :=
  match Yaml.readRecord Yaml.settingsType ⟨document, [], [], document.root⟩ with
  | .ok s => s.checked
  | .error f => .error (.yaml f)

/-- Reads settings from YAML text. A blank text means the defaults. -/
def ofYaml (text : String) : Except SettingsFault Settings :=
  if isBlankText text then .ok {}
  else match Yaml.Document.ofText? text with
    | some document => ofDocument document
    | none => .error (.yaml .malformed)

/-- A blank text means the default settings. -/
theorem ofYaml_blank {text : String} (h : isBlankText text) : ofYaml text = .ok {} := by
  simp [ofYaml, h]

end Settings

end DataLineage
