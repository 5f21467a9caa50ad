import DataLineage.Graph.OfRegistry
import DataLineage.Project.SnapshotJson
import DataLineage.Project.SnapshotYaml
import DataLineage.Settings.Yaml

/-!
# Projects in files

A project or a settings file by its name and its bytes, the graph of a project, and what is said of a
file that cannot be loaded. Which format a project file is read in depends on its name alone.

* `SourceFile.extension?_eq_some_iff`: the extension of a file name is what follows its last dot, with
  something before that dot.
-/

namespace DataLineage

/-- A file by its name; one that does not exist has no bytes. -/
structure SourceFile where
  name : String
  bytes : Option ByteArray

/-- Why a file has no text. -/
inductive FileFault where
  | notFound
  | notText
  deriving DecidableEq, Repr

namespace SourceFile

def text (f : SourceFile) : Except FileFault String :=
  match f.bytes with
  | none => .error .notFound
  | some bytes => match String.fromUTF8? bytes with
    | some s => .ok s
    | none => .error .notText

/-- The name of a file itself, without the directories before it. -/
def ownName (name : String) : List Char := ((name.toList.splitOn '/').getLast?).getD []

/-- What follows the last dot of a file name, unless the name begins with that dot or has none. -/
def extension? (name : String) : Option (List Char) :=
  let own := ownName name
  (own.splitOn '.').getLast?.filter fun last => last.length + 1 < own.length

/-- Whether a project file is read as JSON; any other is read as YAML. -/
def isJson (f : SourceFile) : Bool :=
  (extension? f.name).any fun e => e.map Char.toLower == ['j', 's', 'o', 'n']

/-! ### Parts of a name -/

variable {mark : Char} {cs back own e : List Char} {name : String}

/-- A text with a mark in it has a last one. -/
theorem exists_last_mark (h : mark ∈ cs) :
    ∃ front back, cs = front ++ mark :: back ∧ mark ∉ back := by
  induction cs with
  | nil => cases h
  | cons c cs ih =>
    by_cases hcs : mark ∈ cs
    · obtain ⟨front, back, rfl, hback⟩ := ih hcs
      exact ⟨c :: front, back, rfl, hback⟩
    · obtain rfl := (List.mem_cons.1 h).resolve_right hcs
      exact ⟨[], cs, rfl, hcs⟩

theorem splitOn_of_not_mem (h : mark ∉ cs) : cs.splitOn mark = [cs] :=
  List.splitOnP_eq_singleton fun _ hc => beq_false_of_ne (ne_of_mem_of_not_mem hc h)

/-- **The last part of a text** is what follows its last mark, or all of it. -/
theorem getLast?_splitOn_eq_some_iff : (cs.splitOn mark).getLast? = some back ↔
    mark ∉ back ∧ (cs = back ∨ ∃ front, cs = front ++ mark :: back) := by
  have hlast {front back : List Char} (h : mark ∉ back) :
      ((front ++ mark :: back).splitOn mark).getLast? = some back := by
    have hsplit := List.splitOnP_append_cons (p := (· == mark)) front back (beq_self_eq_true mark)
    have hback : back.splitOnP (· == mark) = [back] := splitOn_of_not_mem h
    rw [List.splitOn, hsplit, hback, List.getLast?_concat]
  constructor
  · intro h
    by_cases hmem : mark ∈ cs
    · obtain ⟨front, back', rfl, hback⟩ := exists_last_mark hmem
      obtain rfl := Option.some.inj ((hlast hback).symm.trans h)
      exact ⟨hback, .inr ⟨front, rfl⟩⟩
    · rw [splitOn_of_not_mem hmem] at h
      obtain rfl := Option.some.inj h
      exact ⟨hmem, .inl rfl⟩
  · rintro ⟨hback, rfl | ⟨front, rfl⟩⟩
    · rw [splitOn_of_not_mem hback]
      rfl
    · exact hlast hback

/-- **The name of a file itself** is what follows the last slash, or all of the name. -/
theorem ownName_eq_iff : ownName name = own ↔
    '/' ∉ own ∧ (name.toList = own ∨ ∃ directory, name.toList = directory ++ '/' :: own) := by
  rw [← getLast?_splitOn_eq_some_iff, ownName]
  cases hparts : (name.toList.splitOn '/').getLast? with
  | none => exact absurd (List.getLast?_eq_none_iff.1 hparts) (List.splitOnP_ne_nil _ _)
  | some last => rw [Option.getD_some, Option.some.injEq]

/-- **The extension of a file name** is what follows its last dot, with something before that dot. -/
theorem extension?_eq_some_iff : extension? name = some e ↔
    '.' ∉ e ∧ ∃ stem, stem ≠ [] ∧ ownName name = stem ++ '.' :: e := by
  rw [extension?, Option.filter_eq_some_iff, getLast?_splitOn_eq_some_iff, decide_eq_true_eq]
  constructor
  · rintro ⟨⟨he, hown | ⟨stem, hown⟩⟩, hlength⟩
    · -- without a dot the last part is the whole name
      rw [hown] at hlength
      omega
    · refine ⟨he, stem, ?_, hown⟩
      rintro rfl
      rw [hown, List.nil_append, List.length_cons] at hlength
      omega
  · rintro ⟨he, stem, hstem, hown⟩
    have hpos : 0 < stem.length := List.length_pos_iff.2 hstem
    refine ⟨⟨he, .inr ⟨stem, hown⟩⟩, ?_⟩
    rw [hown, List.length_append, List.length_cons]
    omega

end SourceFile

/-- Why a project file has no registry. -/
inductive SnapshotFault where
  | file (f : FileFault)
  | json (f : Json.Fault)
  | yaml (f : Yaml.Fault)
  | name (f : NameFault)

/-- Why settings or a project cannot be loaded. -/
inductive LoadFault where
  | file (f : FileFault)
  | settings (f : SettingsFault)
  | registry (f : SnapshotFault)

/-! ### Messages -/

/-- The words of the file system and of the parsers for what they complain about themselves. -/
structure ForeignWords where
  file : FileFault → String
  json : Json.Break → String
  yaml : String

def SnapshotFault.message (w : ForeignWords) : SnapshotFault → String
  | file f => "IO error: " ++ w.file f
  | json f => "JSON error: " ++ f.message w.json
  | yaml f => "YAML error: " ++ f.message w.yaml
  | name f => f.message

def LoadFault.message (w : ForeignWords) : LoadFault → String
  | file f => "IO error: " ++ w.file f
  | settings f => f.message w.yaml
  | registry f => "Registry error: " ++ f.message w

/-! ### Loading -/

/-- Reads settings from a file. -/
def Settings.load (f : SourceFile) : Except LoadFault Settings :=
  match f.text with
  | .error e => .error (.file e)
  | .ok text => (Settings.ofYaml text).mapError .settings

namespace Project

/-- Reads a snapshot from a file. -/
def readSnapshot (f : SourceFile) : Except SnapshotFault ProjectSnapshot :=
  match f.text with
  | .error e => .error (.file e)
  | .ok text =>
    if f.isJson then (ProjectSnapshot.ofJson text).mapError .json
    else (ProjectSnapshot.ofYaml text).mapError .yaml

/-- The registry and the defaults of a project file. -/
def readParts (f : SourceFile) : Except SnapshotFault (Registry × ProjectDefaults) := do
  let snapshot ← readSnapshot f
  let registry ← snapshot.toRegistry.mapError .name
  pure (registry, snapshot.defaults)

/-- The graph of a project file. The project's own default source counts where the options name
none. -/
def load (options : BuildOptions) (f : SourceFile) : Except LoadFault Graph := do
  let (registry, defaults) ← (readParts f).mapError .registry
  pure (.ofRegistry (options.withProjectDefaults defaults) registry)

end Project

end DataLineage
