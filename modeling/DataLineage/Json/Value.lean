import DataLineage.Json.Token

/-!
# JSON values

The tokens of a text are put together by a stack of open arrays and objects. Every text has a value:
where the text is not JSON, the value has a hole that says how it fails there, and a reader that
goes through the value from left to right meets the first fault of the text first.

* `foldl_step_done`: what follows the value of a document is noted, whatever it is.
-/

namespace DataLineage.Json

/-- What stands at the start of a value. -/
inductive Head where
  | scalar (s : Scalar)
  | array
  | object
  deriving DecidableEq, Repr

/-- A value, or as much of one as there is. `stop` says how an array or object ends that lacks its
closing mark. -/
inductive Value where
  | scalar (s : Scalar)
  | array (items : List Value) (stop : Option Break)
  | object (members : List (Text × Value)) (stop : Option Break)
  /-- An object in which something else stands in the place of the first name. -/
  | unnamed (first : Head)
  deriving Repr

def Value.broken (b : Break) : Value := .scalar (.broken b)

/-- A name that is not there. -/
def Text.missing (b : Break) : Text := ⟨[], some b⟩

/-- An open array or object with what it holds before the value that is read now. -/
inductive Frame where
  | array (items : List Value)
  | object (members : List (Text × Value)) (name : Text)

/-- A document: its value, and whether anything follows it. -/
structure Document where
  value : Value
  trailing : Bool

/-- What comes next in a text, inside the open arrays and objects of the stack. -/
inductive State where
  | value (stack : List Frame)
  | firstItem (stack : List Frame)
  | afterItem (items : List Value) (stack : List Frame)
  | firstName (stack : List Frame)
  | name (members : List (Text × Value)) (stack : List Frame)
  | colon (members : List (Text × Value)) (name : Text) (stack : List Frame)
  | afterMember (members : List (Text × Value)) (stack : List Frame)
  | done (d : Document)

/-- Closes all open arrays and objects around a value with a hole. -/
def unwind (v : Value) : List Frame → Value
  | [] => v
  | .array items :: stack => unwind (.array (items ++ [v]) (some .malformed)) stack
  | .object members name :: stack =>
    unwind (.object (members ++ [(name, v)]) (some .malformed)) stack

/-- Puts a whole value in its place. -/
def put (v : Value) : List Frame → State
  | [] => .done ⟨v, false⟩
  | .array items :: stack => .afterItem (items ++ [v]) stack
  | .object members name :: stack => .afterMember (members ++ [(name, v)]) stack

/-- Ends the document at a hole. -/
def fail (v : Value) (stack : List Frame) : State := .done ⟨unwind v stack, false⟩

/-- Begins a value with a token. -/
def start (stack : List Frame) : Token → State
  | .scalar s => put (.scalar s) stack
  | .openArray => .firstItem stack
  | .openObject => .firstName stack
  | _ => fail (.broken .malformed) stack

/-- The start of a value that a token makes. -/
def head? : Token → Option Head
  | .scalar s => some (.scalar s)
  | .openArray => some .array
  | .openObject => some .object
  | _ => none

/-- The state after a token. -/
def step : State → Token → State
  | .value stack, t => start stack t
  | .firstItem stack, t =>
    if t = .closeArray then put (.array [] none) stack else start (.array [] :: stack) t
  | .afterItem items stack, t =>
    if t = .comma then .value (.array items :: stack)
    else if t = .closeArray then put (.array items none) stack
    else fail (.array items (some .malformed)) stack
  | .firstName stack, t =>
    match t with
    | .scalar (.text name) => .colon [] name stack
    | .closeObject => put (.object [] none) stack
    | t => match head? t with
      | some first => fail (.unnamed first) stack
      | none => fail (.object [] (some .malformed)) stack
  | .name members stack, t =>
    match t with
    | .scalar (.text name) => .colon members name stack
    | _ => fail (.object (members ++ [(.missing .malformed, .broken .malformed)]) none) stack
  | .colon members name stack, t =>
    if t = .colon then .value (.object members name :: stack)
    else fail (.broken .malformed) (.object members name :: stack)
  | .afterMember members stack, t =>
    if t = .comma then .name members stack
    else if t = .closeObject then put (.object members none) stack
    else fail (.object members (some .malformed)) stack
  | .done d, _ => .done { d with trailing := true }

/-- The document when the text ends. -/
def finish : State → Document
  | .value stack => ⟨unwind (.broken .ended) stack, false⟩
  | .firstItem stack => ⟨unwind (.array [] (some .ended)) stack, false⟩
  | .afterItem items stack => ⟨unwind (.array items (some .ended)) stack, false⟩
  | .firstName stack => ⟨unwind (.object [] (some .ended)) stack, false⟩
  | .name members stack =>
    ⟨unwind (.object (members ++ [(.missing .ended, .broken .ended)]) none) stack, false⟩
  | .colon members name stack =>
    ⟨unwind (.broken .ended) (.object members name :: stack), false⟩
  | .afterMember members stack => ⟨unwind (.object members (some .ended)) stack, false⟩
  | .done d => d

/-- The document a text is. -/
def Document.ofChars (cs : List Char) : Document := finish ((tokens cs).foldl step (.value []))

/-- What follows the value of a document is noted, whatever it is. -/
theorem foldl_step_done (ts : List Token) (d : Document) :
    ts.foldl step (.done d) = .done { d with trailing := d.trailing || !ts.isEmpty } := by
  induction ts generalizing d with
  | nil => simp
  | cons t ts ih => simp [step, ih]

end DataLineage.Json
