import DataLineage.Decimal.Reading
import DataLineage.Document.Fault
import DataLineage.Yaml.Node

/-!
# What YAML scalars mean

A plain scalar can mean null, a truth value or a number; any other scalar is a text, unless its tag
says otherwise.

* `plainFound_of_isZeroPadded`: digits with a needless zero in front are a text.
-/

namespace DataLineage.Yaml

def isNull (s : String) : Bool := ["null", "Null", "NULL", "~"].contains s

def boolean? (s : String) : Option Bool :=
  if ["true", "True", "TRUE"].contains s then some true
  else if ["false", "False", "FALSE"].contains s then some false
  else none

/-- Whether a text is digits with a zero in front that is not the only one. Such a text is no
number. -/
def isZeroPadded (s : List Char) : Bool :=
  match (takeSign s).2 with
  | '0' :: d :: rest => (d :: rest).all Char.isDigit
  | _ => false

/-- The base that a letter after a zero stands for. -/
def baseOf? (c : Char) : Option Nat :=
  match c with
  | 'x' => some 16
  | 'o' => some 8
  | 'b' => some 2
  | _ => none

/-- The number with these digits, in the base that they begin with or else in base ten. -/
def magnitude? (digits : List Char) : Option Nat :=
  match digits with
  | '0' :: c :: rest => match baseOf? c with
    | some base => natInBase? base rest
    | none => natInBase? 10 digits
  | _ => natInBase? 10 digits

/-- A number with or without a plus, below a bound. -/
def unsigned? (bound : Nat) (s : List Char) : Option Nat :=
  let digits := match s with
    | '+' :: rest => rest
    | _ => s
  if isZeroPadded s then none else (magnitude? digits).filter (· < bound)

/-- A number with a minus, of a magnitude up to a bound. -/
def negative? (bound : Nat) (s : List Char) : Option Int :=
  match s with
  | '-' :: digits =>
    if isZeroPadded s then none
    else ((magnitude? digits).filter (· ≤ bound)).map fun n => -(n : Int)
  | _ => none

/-- What an integer is, if a text is one. -/
def integer? (s : List Char) : Option Found :=
  match unsigned? (Nat.pow 2 64) s, negative? (Nat.pow 2 63) s with
  | some n, _ => some (.integer n)
  | none, some n => some (.integer n)
  | none, none =>
    match unsigned? (Nat.pow 2 128) s, negative? (Nat.pow 2 127) s with
    | some n, _ => some (.wideInteger n)
    | none, some n => some (.wideInteger n)
    | none, none => none

/-- A double. Infinities and NaN have names with a point; a number beyond the doubles is none. -/
def double? (s : String) : Option Float :=
  let cs := s.toList
  let positive := match cs with
    | '+' :: rest => rest
    | _ => cs
  if [".inf", ".Inf", ".INF"].contains (String.ofList positive) then some (1 / 0)
  else if ["-.inf", "-.Inf", "-.INF"].contains s then some (-1 / 0)
  else if [".nan", ".NaN", ".NAN"].contains s then some (0 / 0)
  else if cs.head? = some '+' ∧ (positive.head? = some '+' ∨ positive.head? = some '-') then none
  else (readFloat? (String.ofList positive)).filter (·.isFinite)

/-- What a plain scalar without a tag is. -/
def plainFound (s : String) : Found :=
  if s.isEmpty || isNull s then .null
  else match boolean? s, integer? s.toList with
    | some b, _ => .boolean b
    | none, some n => n
    | none, none =>
      if isZeroPadded s.toList then .text s
      else match double? s with
        | some x => .float x
        | none => .text s

/-! ### Tags -/

/-- The tags of the core schema. -/
def coreTag (name : String) : String := String.join ["tag:yaml.org,2002:", name]

/-- The name that a tag of one's own gives. -/
def ownName? (tag : Option String) : Option String :=
  match tag.map String.toList with
  | some ['!'] => some "!"
  | some ('!' :: rest) => some (String.ofList rest)
  | _ => none

/-- The fault of a scalar that stands where something else is wanted. A scalar that does not say what
its own tag claims is faulted for that. -/
def scalarFault (tag : Option String) (style : Style) (s : String) (wanted : Wanted) :
    ShapeFault :=
  let expect (found : Option Found) (claimed : Wanted) : ShapeFault := match found with
    | some f => .invalidType f wanted
    | none => .invalidValue (.text s) claimed
  if tag = some (coreTag "bool") then expect ((boolean? s).map .boolean) .boolean
  else if tag = some (coreTag "int") then expect (integer? s.toList) .integer
  else if tag = some (coreTag "float") then expect ((double? s).map .float) .float
  else if tag = some (coreTag "null") then expect (if isNull s then some .null else none) .null
  else if style = .plain ∧ (tag.isNone ∨ (ownName? tag).isSome) then
    .invalidType (plainFound s) wanted
  else .invalidType (.text s) wanted

/-- A zero-padded text is no integer. -/
theorem integer?_of_isZeroPadded {s : List Char} (h : isZeroPadded s) : integer? s = none := by
  have hu : ∀ bound, unsigned? bound s = none := fun bound => by simp [unsigned?, h]
  have hn : ∀ bound, negative? bound s = none := fun bound => by
    unfold negative?; split <;> simp [h]
  simp [integer?, hu, hn]

/-- **Digits with a needless zero in front are a text**, and neither a number nor anything else. -/
theorem plainFound_of_isZeroPadded {s : String} (h : isZeroPadded s.toList) :
    plainFound s = .text s := by
  -- the words that mean null or a truth value begin with no zero
  have hwords : ∀ w ∈ ["", "null", "Null", "NULL", "~", "true", "True", "TRUE", "false", "False",
      "FALSE"], ¬ isZeroPadded w.toList := by decide
  have hne := fun w hw (heq : s = w) => hwords w hw (heq ▸ h)
  simp only [List.forall_mem_cons, imp_false] at hne
  have hnull : (s.isEmpty || isNull s) = false := by simp [isNull, hne]
  have hboolean : boolean? s = none := by simp [boolean?, hne]
  rw [plainFound, hnull, hboolean, integer?_of_isZeroPadded h]
  simp [h]

end DataLineage.Yaml
