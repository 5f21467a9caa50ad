import DataLineage.Text.Blank

/-!
# Project objects

The kinds of object a project declares, what each kind is for, and the declaration of one object.

* `ObjectType.ofTag?_tag`: a type's tag is read back as that type.
-/

namespace DataLineage

/-- The part of a project an object belongs to. -/
inductive ObjectLayer where
  | data
  | semantic
  | presentation
  deriving DecidableEq, Repr, Inhabited

def ObjectLayer.tag : ObjectLayer → String
  | data => "data"
  | semantic => "semantic"
  | presentation => "presentation"

/-- The kinds of object a project declares, in the order they are listed to users. -/
inductive ObjectType where
  | source
  | model
  | dimension
  | metric
  | relation
  | insight
  | chart
  | table
  | dashboard
  | markdown
  | input
  deriving DecidableEq, Repr, Inhabited

namespace ObjectType

/-- Every type, in the order of declaration. -/
def all : List ObjectType :=
  [source, model, dimension, metric, relation, insight, chart, table, dashboard, markdown, input]

/-- The name of a type in project documents. -/
def tag : ObjectType → String
  | source => "source"
  | model => "model"
  | dimension => "dimension"
  | metric => "metric"
  | relation => "relation"
  | insight => "insight"
  | chart => "chart"
  | table => "table"
  | dashboard => "dashboard"
  | markdown => "markdown"
  | input => "input"

def layer : ObjectType → ObjectLayer
  | source => .data
  | model | dimension | metric | relation => .semantic
  | insight | chart | table | dashboard | markdown | input => .presentation

/-- Only a model that names no source is taken to read the project's default source. -/
def infersDefaultSource : ObjectType → Bool
  | model => true
  | _ => false

/-- The type with exactly this tag. -/
def ofTag? (tag : String) : Option ObjectType := all.find? fun t => t.tag == tag

/-- An ASCII letter in lower case, any other character as it is. -/
def lowerAscii (c : Char) : Char := if 'A' ≤ c ∧ c ≤ 'Z' then Char.ofNat (c.toNat + 32) else c

/-- The type a user means: blanks around the tag and the case of ASCII letters do not matter. -/
def parse? (text : String) : Option ObjectType :=
  ofTag? (String.ofList ((trimChars text.toList).map lowerAscii))

/-- The complaint about a text that means no type. It quotes the text untrimmed. -/
def unknownMessage (text : String) : String := String.join ["unknown object type: ", text]

theorem ofTag?_tag (t : ObjectType) : ofTag? t.tag = some t := by cases t <;> rfl

end ObjectType

/-- One declared object: its name, its type and the names it reads from, as written. -/
structure ObjectRecord where
  name : String
  type : ObjectType
  dependsOn : List String := []
  deriving DecidableEq, Repr, Inhabited

theorem ObjectRecord.ext_iff {r s : ObjectRecord} :
    r = s ↔ r.name = s.name ∧ r.type = s.type ∧ r.dependsOn = s.dependsOn := by
  cases r; cases s; simp

end DataLineage
