import DataLineage.Text.Digit

/-!
# Reading decimals

The text of a floating-point number: a sign, digits with or without a point, and an exponent; or the
name of an infinity or of NaN. The number is the nearest double.
-/

namespace DataLineage

/-- A decimal as written: its digits before and after the point, and its exponent. -/
structure DecimalText where
  whole : List Char
  fraction : List Char
  exponent : Int
  deriving DecidableEq, Repr

namespace DecimalText

def coefficient (t : DecimalText) : Nat := natOfDigits (t.whole ++ t.fraction)

/-- The nearest double. An exponent that is out of reach of the digits is not multiplied out. -/
def value (t : DecimalText) : Float :=
  let coefficient := t.coefficient
  let exponent := t.exponent - t.fraction.length
  let leading := (t.whole.length + t.fraction.length : Int) + exponent
  if coefficient = 0 ∨ leading < -400 then 0
  else if 400 < exponent then 1 / 0
  else Float.ofScientific coefficient (exponent < 0) exponent.natAbs

end DecimalText

/-- The sign at the start of a text, if there is one. -/
def takeSign : List Char → Bool × List Char
  | '-' :: rest => (true, rest)
  | '+' :: rest => (false, rest)
  | cs => (false, cs)

theorem length_takeSign (cs : List Char) : (takeSign cs).2.length ≤ cs.length := by
  unfold takeSign; split <;> simp

/-- An exponent: a sign and at least one digit, to the end of the text. -/
def exponentOf? (cs : List Char) : Option Int :=
  let (negative, digits) := takeSign cs
  if digits.isEmpty || !digits.all Char.isDigit then none
  else some (if negative then -(natOfDigits digits : Int) else natOfDigits digits)

/-- A decimal without a sign, to the end of the text. There is a digit before or after the point. -/
def decimalText? (cs : List Char) : Option DecimalText :=
  let whole := cs.takeWhile Char.isDigit
  let rest := cs.dropWhile Char.isDigit
  let (fraction, rest) := match rest with
    | '.' :: rest => (rest.takeWhile Char.isDigit, rest.dropWhile Char.isDigit)
    | rest => ([], rest)
  if whole.isEmpty && fraction.isEmpty then none
  else
    match rest with
    | [] => some ⟨whole, fraction, 0⟩
    | c :: rest =>
      if c = 'e' ∨ c = 'E' then (exponentOf? rest).map fun e => ⟨whole, fraction, e⟩ else none

/-- The double a text means, names of infinities and NaN in any case included. -/
def readFloat? (s : String) : Option Float :=
  let (negative, cs) := takeSign s.toList
  let magnitude :=
    let name := String.ofList (cs.map Char.toLower)
    if name == "inf" || name == "infinity" then some (1 / 0)
    else if name == "nan" then some (0 / 0)
    else (decimalText? cs).map DecimalText.value
  magnitude.map fun x => if negative then -x else x

end DataLineage
