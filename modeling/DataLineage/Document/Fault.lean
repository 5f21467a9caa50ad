import DataLineage.Decimal.Notation
import DataLineage.Text.Quoted

/-!
# Faults in the shape of a document

A document can be well formed and still not say what is wanted: a number stands where a list should,
a field is missing or comes twice, a name is none of those possible. Such a fault is a value; its
wording depends on the format only in how a few of the things found are called.
-/

namespace DataLineage

/-- What stands in a document where something else is wanted. -/
inductive Found where
  | null
  | boolean (b : Bool)
  | integer (n : Int)
  /-- An integer of more than 64 bits. -/
  | wideInteger (n : Int)
  | float (x : Float)
  | text (s : String)
  | sequence
  | map

/-- What is wanted in a place of a document. -/
inductive Wanted where
  | text
  | sequence
  | unit
  | null
  | boolean
  | integer
  | float
  | double
  | size
  | variantName
  | fieldName
  | variantTag
  | record (name : String)
  deriving DecidableEq, Repr

inductive ShapeFault where
  /-- A thing of the wrong kind. -/
  | invalidType (found : Found) (wanted : Wanted)
  /-- A thing of the right kind that does not say what is wanted. -/
  | invalidValue (found : Found) (wanted : Wanted)
  | missingField (field : String)
  | duplicateField (field : String)
  /-- A name that is none of those possible. -/
  | unknownVariant (name : String) (possible : List String)
  /-- A list with too few items to be a record of so many fields. -/
  | invalidLength (length : Nat) (record : String) (fields : Nat)

/-- How a document format calls what it found. -/
structure FoundWords where
  null : String
  float : FloatFormat

/-- A name or a value between the marks that messages put around them. -/
def marked (name : String) : String := "`" ++ name ++ "`"

def Found.words (w : FoundWords) : Found → String
  | null => w.null
  | boolean b => String.join ["boolean ", marked (if b then "true" else "false")]
  | integer n => String.join ["integer ", marked (toString n)]
  | wideInteger n =>
    String.join ["integer ", marked (toString n), " as ", if n < 0 then "i128" else "u128"]
  | float x => String.join ["floating point ", marked (w.float.render x)]
  | text s => String.join ["string ", quoted s]
  | sequence => "sequence"
  | map => "map"

def Wanted.words : Wanted → String
  | text => "a string"
  | sequence => "a sequence"
  | unit => "unit"
  | null => "null"
  | boolean => "a boolean"
  | integer => "an integer"
  | float => "a float"
  | double => "f64"
  | size => "usize"
  | variantName => "variant identifier"
  | fieldName => "field identifier"
  | variantTag => "a YAML tag starting with '!'"
  | record name => "struct " ++ name

/-- The possible names as a message lists them. -/
def possibleWords : List String → String
  | [] => "there are no variants"
  | [a] => "expected " ++ marked a
  | [a, b] => "expected " ++ marked a ++ " or " ++ marked b
  | names => "expected one of " ++ ", ".intercalate (names.map marked)

def ShapeFault.message (w : FoundWords) : ShapeFault → String
  | invalidType found wanted =>
    String.join ["invalid type: ", found.words w, ", expected ", wanted.words]
  | invalidValue found wanted =>
    String.join ["invalid value: ", found.words w, ", expected ", wanted.words]
  | missingField field => String.join ["missing field ", marked field]
  | duplicateField field => String.join ["duplicate field ", marked field]
  | unknownVariant name possible =>
    String.join ["unknown variant ", marked name, ", ", possibleWords possible]
  | invalidLength length record fields =>
    String.join ["invalid length ", toString length, ", expected struct ", record, " with ",
      toString fields, " elements"]

end DataLineage
