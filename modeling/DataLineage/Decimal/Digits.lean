/-!
# Shortest decimal digits

Every finite double is `m · 2^q`. Among the decimals that read back as that double, the shortest one
is found by trying grids of one, two, … seventeen digits. Of a grid only the two neighbours of the
number matter: if any point of the grid reads back, so does one of them.

* `ReadsBack.holds_of_choose?`: a chosen coefficient reads back.
-/

namespace DataLineage

/-- The natural number `coefficient · 10^exponent`, or its fraction when the exponent is negative. -/
structure Decimal where
  coefficient : Nat
  exponent : Int
  deriving DecidableEq, Repr, Inhabited

/-- Which of two equally near decimals is taken. -/
inductive Tie where
  /-- The greater one. -/
  | up
  /-- The one with an even last digit. -/
  | even
  deriving DecidableEq, Repr

/-- A positive double `m · 2^q`. -/
structure Binary where
  m : Nat
  q : Int
  deriving DecidableEq, Repr, Inhabited

/-- The kinds of double; the finite ones but zero have a sign and a magnitude. -/
inductive FloatParts where
  | nan
  | infinite (negative : Bool)
  | zero (negative : Bool)
  | finite (negative : Bool) (magnitude : Binary)
  deriving DecidableEq, Repr

/-- A double taken apart by its bits. -/
def FloatParts.ofFloat (x : Float) : FloatParts :=
  let bits := x.toBits.toNat
  let negative : Bool := Nat.pow 2 63 ≤ bits
  let exponent := bits / Nat.pow 2 52 % 2048
  let fraction := bits % Nat.pow 2 52
  if exponent = 2047 then if fraction = 0 then infinite negative else nan
  else if exponent = 0 then
    if fraction = 0 then zero negative else finite negative ⟨fraction, -1074⟩
  else finite negative ⟨Nat.pow 2 52 + fraction, Int.ofNat exponent - 1075⟩

/-- The point `c` of the grid of multiples of `10^k` seen from a double: both as multiples of one
unit, with the ends of the interval of numbers that read back as the double. -/
structure ReadsBack where
  low : Nat
  value : Nat
  high : Nat
  /-- One step of the grid. -/
  step : Nat
  /-- Whether the ends themselves read back. -/
  closed : Bool
  deriving Repr

namespace ReadsBack

/-- The interval of a double on the grid of multiples of `10^k`. Its ends lie half way to the
neighbouring doubles, and the neighbour below a power of two is only half as far. -/
def ofBinary (b : Binary) (k : Int) : ReadsBack :=
  let scale := Nat.pow 2 (b.q - 2).toNat * Nat.pow 10 (-k).toNat
  let below := if b.m = Nat.pow 2 52 ∧ -1074 < b.q then 1 else 2
  { low := (4 * b.m - below) * scale
    value := 4 * b.m * scale
    high := (4 * b.m + 2) * scale
    step := Nat.pow 2 (2 - b.q).toNat * Nat.pow 10 k.toNat
    closed := b.m % 2 == 0 }

/-- Whether the `c`-th point of the grid reads back. -/
def holds (r : ReadsBack) (c : Nat) : Bool :=
  if r.closed then r.low ≤ c * r.step && c * r.step ≤ r.high
  else r.low < c * r.step && c * r.step < r.high

/-- The nearest point of the grid, if it or its other neighbour reads back. -/
def choose? (tie : Tie) (r : ReadsBack) : Option Nat :=
  let below := r.value / r.step
  let above := below + 1
  match r.holds below, r.holds above with
  | false, false => none
  | true, false => some below
  | false, true => some above
  | true, true =>
    let down := r.value - below * r.step
    let up := above * r.step - r.value
    if down < up then some below
    else if up < down then some above
    else match tie with
      | .up => some above
      | .even => some (if below % 2 = 0 then below else above)

/-- A chosen coefficient reads back. -/
theorem holds_of_choose? {tie : Tie} {r : ReadsBack} {c : Nat} (h : r.choose? tie = some c) : r.holds c := by
  unfold choose? at h
  simp only at h
  split at h
  · cases h
  · cases h; assumption
  · cases h; assumption
  · split at h
    · cases h; assumption
    · split at h
      · cases h; assumption
      · split at h
        · cases h; assumption
        · cases h; split <;> assumption

end ReadsBack

/-- The number of digits before the decimal point of a double; for one below `1`, the negated number
of zeros right after the point. -/
def Binary.magnitude (b : Binary) : Int :=
  let numerator := b.m * Nat.pow 2 b.q.toNat
  let denominator := Nat.pow 2 (-b.q).toNat
  if denominator ≤ numerator then (Nat.toDigits 10 (numerator / denominator)).length
  else
    let zeros := (List.range 400).find? fun k => denominator ≤ numerator * Nat.pow 10 (k + 1)
    Int.neg (zeros.getD 0)

/-- Takes trailing zeros from a coefficient into the exponent, at most `fuel` of them. -/
def Decimal.strip : Nat → Decimal → Decimal
  | 0, d => d
  | fuel + 1, d =>
    if d.coefficient % 10 = 0 ∧ d.coefficient ≠ 0 then
      strip fuel ⟨d.coefficient / 10, d.exponent + 1⟩
    else d

/-- The shortest decimal that reads back as a double, and of the shortest the nearest. -/
def Binary.shortest (tie : Tie) (b : Binary) : Decimal :=
  let grids := (List.range 17).map fun n => b.magnitude - 1 - Int.ofNat n
  let found := grids.findSome? fun k : Int =>
    ((ReadsBack.ofBinary b k).choose? tie).map fun c => (⟨c, k⟩ : Decimal)
  Decimal.strip 20 (found.getD ⟨0, 0⟩)

end DataLineage
