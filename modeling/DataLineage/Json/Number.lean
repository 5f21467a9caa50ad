import DataLineage.Json.Token
import DataLineage.Document.Fault

/-!
# Values of JSON numbers

A number without fraction and exponent is an integer while it has at most 64 bits. Any other number
is a double: its digits make a significand of at most 64 bits, which is scaled by a power of ten.
Numbers beyond the doubles are refused.

* `Significand.takeWhole_eq`: digits before the point that fit 64 bits are taken in to the last.
-/

namespace DataLineage.Json

/-- The digits of a number that fit 64 bits, and the power of ten that goes with them. -/
structure Significand where
  value : Nat
  exponent : Int
  deriving DecidableEq, Repr

namespace Significand

/-- Takes in digits before the point. From the first that does not fit, they only count. -/
def takeWhole (n : Nat) : List Char → Significand
  | [] => ⟨n, 0⟩
  | d :: ds =>
    if appendDigit n d < Nat.pow 2 64 then takeWhole (appendDigit n d) ds
    else ⟨n, (ds.length : Int) + 1⟩

/-- Takes in digits after the point. Those from the first that does not fit are left out. -/
def takeFraction (s : Significand) : List Char → Significand
  | [] => s
  | d :: ds =>
    if appendDigit s.value d < Nat.pow 2 64 then
      takeFraction ⟨appendDigit s.value d, s.exponent - 1⟩ ds
    else s

/-- Digits before the point that fit 64 bits are taken in to the last. -/
theorem takeWhole_eq {n : Nat} {ds : List Char} (h : ds.foldl appendDigit n < Nat.pow 2 64) :
    takeWhole n ds = ⟨ds.foldl appendDigit n, 0⟩ := by
  induction ds generalizing n with
  | nil => rfl
  | cons d ds ih =>
    rw [List.foldl_cons] at h ⊢
    rw [takeWhole, if_pos (Nat.lt_of_le_of_lt (le_foldl_appendDigit _ ds) h)]
    exact ih h

end Significand

/-- A power of ten as a double. -/
def powerOfTen (k : Nat) : Float := Float.ofScientific 1 false k

/-- Divides by a power of ten, in steps that are doubles. -/
def scaleDown (x : Float) (k : Nat) : Float :=
  if h : k ≤ 308 then x / powerOfTen k
  else if x == 0 then x
  else scaleDown (x / powerOfTen 308) (k - 308)
termination_by k
decreasing_by omega

/-- A significand times its power of ten, unless that is beyond the doubles. -/
def Significand.scale? (s : Significand) : Option Float :=
  let x := Float.ofNat s.value
  if s.exponent < 0 then some (scaleDown x s.exponent.natAbs)
  else if s.exponent ≤ 308 then
    let y := x * powerOfTen s.exponent.toNat
    if y.isFinite then some y else none
  else if x == 0 then some x
  else none

namespace Number

/-- The bounds within which exponents are added up. -/
def clampExponent (e : Int) : Int := max (-2147483648) (min e 2147483647)

/-- The magnitude of a number as a double, unless it is beyond the doubles. -/
def magnitude? (n : Number) : Option Float :=
  let s := (Significand.takeWhole 0 n.whole).takeFraction (n.fraction.getD [])
  match n.exponent with
  | none => s.scale?
  | some (negative, digits) =>
    let e := natOfDigits digits
    if e ≤ 2147483647 then
      { s with exponent := clampExponent (s.exponent + if negative then -(e : Int) else e) }.scale?
    else if s.value = 0 ∨ negative then some 0
    else none

/-- What a number is, unless it is beyond the doubles. A negative zero is no integer. -/
def found? (n : Number) : Option Found :=
  let whole := natOfDigits n.whole
  let isInteger := n.fraction.isNone && n.exponent.isNone
  if isInteger && !n.negative && whole < Nat.pow 2 64 then some (.integer whole)
  else if isInteger && n.negative && 0 < whole && whole ≤ Nat.pow 2 63 then
    some (.integer (-(whole : Int)))
  else n.magnitude?.map fun x => .float (if n.negative then -x else x)

end Number

end DataLineage.Json
