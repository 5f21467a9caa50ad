import DataLineage.Json.Value
import DataLineage.Json.Number
import DataLineage.Document.Record

/-!
# Reading JSON values

Readers go through a value in the order of the text and end at the first fault. What nothing asks
for is skipped, with a looser check: any escape and any number will do.

* `skip_eq_ok_iff`: a value is skipped exactly when it breaks off nowhere.
-/

namespace DataLineage.Json

/-- Why a text is not the document that is wanted. -/
inductive Fault where
  | ended
  | malformed
  | shape (f : ShapeFault)

def Break.fault : Break → Fault
  | ended => .ended
  | malformed => .malformed

/-- How messages about JSON call what was found. -/
def words : FoundWords := ⟨"null", .scientific⟩

/-- The text of a fault, without the place in the document. That a text is no JSON is said in the
words of its parser. -/
def Fault.message (parser : Break → String) : Fault → String
  | ended => parser .ended
  | malformed => parser .malformed
  | shape f => f.message words

abbrev Read := Except Fault

/-! ### Strings -/

/-- Whether a UTF-16 unit is the first half of a character. -/
def isLeading (n : Nat) : Bool := 0xD800 ≤ n && n < 0xDC00

/-- Whether a UTF-16 unit is the second half of a character. -/
def isTrailing (n : Nat) : Bool := 0xDC00 ≤ n && n < 0xE000

/-- The character of two halves. -/
def joinHalves (first second : Nat) : Char :=
  Char.ofNat (0x10000 + (first - 0xD800) * 0x400 + (second - 0xDC00))

/-- The characters of a string that ends as `stop` says. A first half needs a second half after it,
and a second half a first one before it. -/
def decodePieces (stop : Option Break) : List Piece → Except Break (List Char)
  | [] => match stop with
    | none => .ok []
    | some b => .error b
  | .char c :: rest => (decodePieces stop rest).map (c :: ·)
  | .unit n :: rest =>
    if isTrailing n then .error .malformed
    else if isLeading n then
      match rest with
      | [] => .error (if stop = some .ended then .ended else .malformed)
      | .char _ :: _ => .error .malformed
      | .unit m :: rest =>
        if isTrailing m then (decodePieces stop rest).map (joinHalves n m :: ·)
        else .error .malformed
    else (decodePieces stop rest).map (Char.ofNat n :: ·)

def Text.decode (t : Text) : Read String :=
  match decodePieces t.stop t.pieces with
  | .ok cs => .ok (String.ofList cs)
  | .error b => .error b.fault

/-! ### Skipping -/

/-- How a scalar breaks off when it is only skipped. -/
def Scalar.break? : Scalar → Option Break
  | null | bool _ | number _ => none
  | cutNumber => some .malformed
  | cutWord => some .ended
  | text t => t.stop
  | broken b => some b

mutual

/-- The first break in a value that is only skipped. -/
def Value.break? : Value → Option Break
  | .scalar s => s.break?
  | .array items stop => (itemsBreak? items).or stop
  | .object members stop => (membersBreak? members).or stop
  | .unnamed _ => some .malformed

def itemsBreak? : List Value → Option Break
  | [] => none
  | v :: rest => v.break?.or (itemsBreak? rest)

def membersBreak? : List (Text × Value) → Option Break
  | [] => none
  | (name, v) :: rest => (name.stop.or v.break?).or (membersBreak? rest)

end

/-- Passes over a value that nothing asks for. -/
def Value.skip (v : Value) : Read Unit :=
  match v.break? with
  | none => .ok ()
  | some b => .error b.fault

/-- A value is skipped exactly when it breaks off nowhere. -/
theorem skip_eq_ok_iff (v : Value) : v.skip = .ok () ↔ v.break? = none := by
  unfold Value.skip; split <;> simp_all

/-! ### Readers -/

/-- What a scalar is, for a message; the scalar itself has to be sound for that. -/
def Scalar.found : Scalar → Read Found
  | null => .ok .null
  | bool b => .ok (.boolean b)
  | number n => match n.found? with
    | some f => .ok f
    | none => .error .malformed
  | cutNumber | cutWord => .error .ended
  | text t => t.decode.map .text
  | broken b => .error b.fault

def Head.found : Head → Read Found
  | scalar s => s.found
  | array => .ok .sequence
  | object => .ok .map

def Value.head : Value → Head
  | scalar s => .scalar s
  | array .. => .array
  | object .. | unnamed _ => .object

/-- The complaint that a value starts with something else than what is wanted. -/
def Head.mismatch {α : Type} (h : Head) (wanted : Wanted) : Read α := do
  throw (.shape (.invalidType (← h.found) wanted))

def Value.mismatch {α : Type} (v : Value) (wanted : Wanted) : Read α := v.head.mismatch wanted

/-- Complains if an array or object lacks its closing mark. -/
def closed : Option Break → Read Unit
  | none => .ok ()
  | some b => .error b.fault

def readText : Value → Read String
  | .scalar (.text t) => t.decode
  | v => v.mismatch .text

/-- A value that may be `null`. -/
def readOption {α : Type} (read : Value → Read α) : Value → Read (Option α)
  | .scalar .null => .ok none
  | v => (read v).map some

def readList {α : Type} (read : Value → Read α) : Value → Read (List α)
  | .array items stop => do
    let xs ← items.mapM read
    closed stop
    pure xs
  | v => v.mismatch .sequence

def readUnit : Value → Read Unit
  | .scalar .null => .ok ()
  | v => v.mismatch .unit

/-- One of some named variants: its name, or an object with the name and `null`. -/
def readVariant {α : Type} (ofName? : String → Option α) (names : List String) :
    Value → Read α := fun v =>
  let variant (name : String) : Read α := match ofName? name with
    | some a => .ok a
    | none => .error (.shape (.unknownVariant name names))
  match v with
  | .scalar (.text t) => do variant (← t.decode)
  | .object members stop =>
    match members with
    | [] => .error (if stop = some .ended then .ended else .malformed)
    | (name, v) :: rest => do
      let a ← variant (← name.decode)
      readUnit v
      if rest.isEmpty then closed stop else .error .malformed
      pure a
  | .unnamed first => first.mismatch .variantName
  | .scalar (.broken b) => .error b.fault
  | _ => .error .malformed

/-! ### Records -/

variable {σ α : Type}

/-- Reads one member of an object. A name that means no field is passed over. -/
def readMember (r : RecordType Value Fault σ α) (s : σ) (member : Text × Value) : Read σ := do
  let name ← member.1.decode
  match r.fieldNamed? name with
  | none =>
    member.2.skip
    pure s
  | some f => if f.isRead s then throw (.shape (.duplicateField f.name)) else f.read member.2 s

/-- Reads the items of an array into the fields, as far as there are items, and returns the items
left over. -/
def readItems (s : σ) : List (Field Value Fault σ) → List Value → Read (σ × List Value)
  | [], items => .ok (s, items)
  | _ :: _, [] => .ok (s, [])
  | f :: fields, v :: items => do readItems (← f.read v s) fields items

/-- Reads a record from an object by its names or from an array by its order. An array may lack
fields that have defaults, but not have more items than there are fields. -/
def readRecord (r : RecordType Value Fault σ α) : Value → Read α
  | .object members stop => do
    let s ← members.foldlM (readMember r) r.start
    closed stop
    match r.ofFields s with
    | .ok a => pure a
    | .error field => throw (.shape (.missingField field))
  | .array items stop => do
    let (s, rest) ← readItems r.start r.fields items
    if items.length < r.fields.length then closed stop
    match r.ofFields s with
    | .ok a =>
      if rest.isEmpty then closed stop else throw .malformed
      pure a
    | .error _ => throw (.shape (.invalidLength items.length r.name r.fields.length))
  | .unnamed _ => .error .malformed
  | v => v.mismatch (.record r.name)

/-- Reads a whole document; nothing may follow its value. -/
def Document.read (d : Document) (reader : Value → Read α) : Read α := do
  let a ← reader d.value
  if d.trailing then .error .malformed else pure a

end DataLineage.Json
