import DataLineage.Document.Fault

/-!
# Record types

How a record is read from a document, whatever the format: the names its fields go by, how each is
read, and what they come to when all are read. `ν` are the values of the format and `ε` its faults;
`σ` holds the fields that have been read.

* `RecordType.fieldNamed?_mem`: only fields of the type are found.
-/

namespace DataLineage

/-- A field: its name, the other names it goes by, whether it has been read, and how it is read. -/
structure Field (ν ε σ : Type) where
  name : String
  aliases : List String := []
  isRead : σ → Bool
  read : ν → σ → Except ε σ

/-- Whether a name means a field. -/
def Field.answersTo {ν ε σ : Type} (f : Field ν ε σ) (name : String) : Bool :=
  f.name == name || f.aliases.contains name

/-- A record type: its name, its fields in order, and the record that they come to. `ofFields` fails
with the name of the first field that is missing. -/
structure RecordType (ν ε σ α : Type) where
  name : String
  fields : List (Field ν ε σ)
  start : σ
  ofFields : σ → Except String α

namespace RecordType

variable {ν ε σ α : Type}

/-- The field that a name means. -/
def fieldNamed? (r : RecordType ν ε σ α) (name : String) : Option (Field ν ε σ) :=
  r.fields.find? (·.answersTo name)

/-- Only fields of the type are found. -/
theorem fieldNamed?_mem {r : RecordType ν ε σ α} {name : String} {f : Field ν ε σ}
    (h : r.fieldNamed? name = some f) : f ∈ r.fields ∧ f.answersTo name :=
  ⟨List.mem_of_find?_eq_some h, by simpa using List.find?_some h⟩

end RecordType

end DataLineage
