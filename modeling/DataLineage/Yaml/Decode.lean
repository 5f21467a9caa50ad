import DataLineage.Document.Record
import DataLineage.Yaml.Schema

/-!
# Reading YAML nodes

Readers look at the shape of a document that is well formed as a whole. A fault is reported with the
path to the node, or to the record around it where the fault lies between its fields.
-/

namespace DataLineage.Yaml

/-- A step from a node to a node in it. -/
inductive Step where
  | item (n : Nat)
  | field (name : String)
  /-- A value whose key is not written as a scalar in its place. -/
  | unknown
  deriving DecidableEq, Repr

/-- The steps from the root, the outermost first. -/
abbrev Path := List Step

/-- The name of a step to a value. -/
def Step.name? : Step → Option String
  | item _ => none
  | field name => some name
  | unknown => some "?"

/-- The text of a path: names are joined by points, and places in a list stand in brackets. -/
def Path.text : Path → String
  | [] => ""
  | step :: steps =>
    let first := match step with
      | .item n => "[" ++ toString n ++ "]"
      | step => step.name?.getD ""
    first ++ String.join (steps.map fun step => match step with
      | .item n => "[" ++ toString n ++ "]"
      | step => "." ++ step.name?.getD "")

/-- Why a text is not the document that is wanted. -/
inductive Fault where
  | malformed
  | shape (path : Path) (f : ShapeFault)

/-- How messages about YAML call what was found. -/
def words : FoundWords := ⟨"unit value", .pointed⟩

/-- The text of a fault, without the place in the document. That a text is no YAML is said in the
words of its parser. -/
def Fault.message (parser : String) : Fault → String
  | malformed => parser
  | shape path f => if path.isEmpty then f.message words else path.text ++ ": " ++ f.message words

abbrev Read := Except Fault

/-- A node in its place: the document that its references are to, the path to it, and the path to the
record whose field it is. -/
structure Placed where
  document : Document
  path : Path
  outer : Path
  /-- The node; a document without one is void. -/
  node : Option Node

namespace Placed

/-- The node itself where a reference stands for it. -/
def resolved (v : Placed) : Option Node :=
  match v.node with
  | some (.reference number) => v.document.target? number
  | node => node

def fail {α : Type} (v : Placed) (f : ShapeFault) : Read α := .error (.shape v.path f)

/-- The same place with a node further in. -/
def inner (v : Placed) (step : Step) (node : Node) : Placed :=
  ⟨v.document, v.path ++ [step], v.path, some node⟩

/-- The fault of a node that stands where something else is wanted. -/
def mismatch {α : Type} (v : Placed) (wanted : Wanted) : Read α :=
  v.fail <| match v.resolved with
    | some (.scalar p style text) => scalarFault p.tag style text wanted
    | some (.sequence ..) => .invalidType .sequence wanted
    | some (.mapping ..) => .invalidType .map wanted
    | _ => .invalidType .null wanted

/-- Whether a node is a scalar with nothing written, which stands for an empty collection. -/
def isNothing (v : Placed) : Bool :=
  match v.resolved with
  | some (.scalar _ style text) => style == .plain && text.isEmpty
  | none => true
  | _ => false

end Placed

/-- A text is any scalar, as it is written. -/
def readText (v : Placed) : Read String :=
  match v.resolved with
  | some (.scalar _ _ text) => .ok text
  | _ => v.mismatch .text

/-- A value that may be absent: a plain null without a tag, or one that its tag says to be null. -/
def readOption {α : Type} (read : Placed → Read α) (v : Placed) : Read (Option α) :=
  match v.resolved with
  | some (.scalar p style text) =>
    if style ≠ .plain then (read v).map some
    else if p.tag = some (coreTag "null") then
      if isNull text then .ok none
      else .error (.shape v.outer (.invalidValue (.text text) .null))
    else if p.tag.isNone && (text.isEmpty || isNull text) then .ok none
    else (read v).map some
  | none => .ok none
  | _ => (read v).map some

/-- Reads the items of a list, which are in the places from `n` on. -/
def readItems {α : Type} (read : Placed → Read α) (v : Placed) : Nat → List Node → Read (List α)
  | _, [] => .ok []
  | n, node :: rest => do
    let a ← read (v.inner (.item n) node)
    pure (a :: (← readItems read v (n + 1) rest))

def readList {α : Type} (read : Placed → Read α) (v : Placed) : Read (List α) :=
  match v.resolved with
  | some (.sequence _ items) => readItems read v 0 items
  | _ => if v.isNothing then .ok [] else v.mismatch .sequence

/-- The content of a variant that has none: null, or nothing at all. -/
def readUnit (v : Placed) : Read Unit :=
  match v.resolved with
  | some (.scalar _ style text) =>
    if style = .plain ∧ (text.isEmpty ∨ isNull text) then .ok ()
    else v.fail (.invalidValue (.text text) .null)
  | some (.sequence ..) => v.fail (.invalidType .sequence .unit)
  | some (.mapping ..) => v.fail (.invalidType .map .unit)
  | _ => .ok ()

/-- One of some named variants: its name as a scalar or as a tag. -/
def readVariant {α : Type} (ofName? : String → Option α) (names : List String) (v : Placed) :
    Read α :=
  let tagged (name : String) : Read α := match ofName? name with
    | some a => do
      readUnit v
      pure a
    | none => .error (.shape v.outer (.unknownVariant name names))
  match v.resolved with
  | some (.scalar p _ text) =>
    match ownName? p.tag with
    | some name => tagged name
    | none => match ofName? text with
      | some a => .ok a
      | none => v.fail (.unknownVariant text names)
  | some (.sequence p _) =>
    match ownName? p.tag with
    | some name => tagged name
    | none => v.fail (.invalidType .sequence .variantTag)
  | some (.mapping p _) =>
    match ownName? p.tag with
    | some name => tagged name
    | none => v.fail (.invalidType .map .variantTag)
  | _ => .error .malformed

/-- A double: a plain scalar, or a literal one that its tag says to be a number. -/
def readDouble (v : Placed) : Read Float :=
  match v.resolved with
  | some (.scalar p style text) =>
    if style = .plain ∨ (style = .literal ∧ p.tag = some (coreTag "float")) then
      match double? text with
      | some x => .ok x
      | none => v.mismatch .double
    else v.mismatch .double
  | _ => v.mismatch .double

/-- A natural number of 64 bits. -/
def readSize (v : Placed) : Read Nat :=
  match v.resolved with
  | some (.scalar p style text) =>
    if style = .plain ∨ (style = .literal ∧ p.tag = some (coreTag "int")) then
      match unsigned? (Nat.pow 2 64) text.toList with
      | some n => .ok n
      | none => v.mismatch .size
    else v.mismatch .size
  | _ => v.mismatch .size

/-! ### Records -/

variable {σ α : Type}

/-- The name that a key gives, and the step to its value. -/
def readKey (v : Placed) (key : Node) : Read (String × Step) :=
  let place : Placed := { v with node := some key }
  match key, place.resolved with
  | .scalar _ _ text, _ => .ok (text, .field text)
  | _, some (.scalar _ _ text) => .ok (text, .unknown)
  | _, _ => place.mismatch .fieldName

/-- Reads one entry of a mapping. A name that means no field is passed over. -/
def readEntry (r : RecordType Placed Fault σ α) (v : Placed) (s : σ) (entry : Node × Node) :
    Read σ := do
  let (name, step) ← readKey v entry.1
  match r.fieldNamed? name with
  | none => pure s
  | some f =>
    if f.isRead s then v.fail (.duplicateField f.name) else f.read (v.inner step entry.2) s

/-- Reads a record from a mapping; where nothing is written, all fields are missing. -/
def readRecord (r : RecordType Placed Fault σ α) (v : Placed) : Read α := do
  let entries ← match v.resolved with
    | some (.mapping _ entries) => pure entries
    | _ => if v.isNothing then pure [] else v.mismatch (.record r.name)
  match r.ofFields (← entries.foldlM (readEntry r v) r.start) with
  | .ok a => pure a
  | .error field => v.fail (.missingField field)

/-- Reads the document that a text is. -/
def read (reader : Placed → Read α) (text : String) : Read α :=
  match Document.ofText? text with
  | some document => reader ⟨document, [], [], document.root⟩
  | none => .error .malformed

end DataLineage.Yaml
