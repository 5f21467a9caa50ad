import DataLineage.Decimal.Digits

/-!
# Decimal notation

How a double is written down: always by its shortest digits, and in one of three formats.

* `FloatFormat.plain` is positional throughout and has no point in a whole number.
* `FloatFormat.pointed` is positional and marks a whole number by `.0`.
* `FloatFormat.scientific` is like `pointed` for moderate numbers and has an exponent otherwise.
-/

namespace DataLineage

structure FloatFormat where
  tie : Tie
  /-- Whether a whole number in positional notation ends in `.0`. -/
  pointZero : Bool
  /-- The decimal exponents that are written positionally; all of them when there are no bounds. -/
  positional : Option (Int × Int)

namespace FloatFormat

def plain : FloatFormat := ⟨.up, false, none⟩

def pointed : FloatFormat := ⟨.up, true, none⟩

def scientific : FloatFormat := ⟨.even, true, some (-5, 15)⟩

end FloatFormat

namespace Decimal

def digits (d : Decimal) : List Char := Nat.toDigits 10 d.coefficient

/-- The decimal exponent of the first digit. -/
def leading (d : Decimal) : Int := (d.digits.length : Int) - 1 + d.exponent

/-- The digits with the point in its place. -/
def positional (pointZero : Bool) (d : Decimal) : List Char :=
  let ds := d.digits
  if 0 ≤ d.exponent then
    ds ++ List.replicate d.exponent.toNat '0' ++ (if pointZero then ['.', '0'] else [])
  else
    let whole := (ds.length : Int) + d.exponent
    if 0 < whole then ds.take whole.toNat ++ '.' :: ds.drop whole.toNat
    else '0' :: '.' :: (List.replicate (-whole).toNat '0' ++ ds)

/-- One digit, the others after a point, and a signed exponent. -/
def scientific (d : Decimal) : List Char :=
  let mantissa := match d.digits with
    | [] => []
    | [c] => [c]
    | c :: rest => c :: '.' :: rest
  let sign := if d.leading < 0 then '-' else '+'
  mantissa ++ 'e' :: sign :: Nat.toDigits 10 d.leading.natAbs

end Decimal

namespace FloatFormat

/-- A magnitude without its sign. -/
def magnitude (f : FloatFormat) (b : Binary) : List Char :=
  let d := b.shortest f.tie
  match f.positional with
  | none => d.positional f.pointZero
  | some (least, greatest) =>
    if least ≤ d.leading && d.leading ≤ greatest then d.positional f.pointZero
    else d.scientific

/-- A double as text. A NaN has no sign; a zero keeps its own. -/
def render (f : FloatFormat) (x : Float) : String :=
  let signed (negative : Bool) (cs : List Char) : String :=
    String.ofList (if negative then '-' :: cs else cs)
  match FloatParts.ofFloat x with
  | .nan => "NaN"
  | .infinite negative => signed negative ['i', 'n', 'f']
  | .zero negative => signed negative (if f.pointZero then ['0', '.', '0'] else ['0'])
  | .finite negative b => signed negative (f.magnitude b)

end FloatFormat

end DataLineage
