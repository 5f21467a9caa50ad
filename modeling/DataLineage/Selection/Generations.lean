import DataLineage.Text.Digit

/-!
# Generations

How many generations of ancestors or descendants a selection takes in.

* `Generations.allowsFrom_iff`: a bound of `n` lets a search go on from the depths below `n`.
-/

namespace DataLineage

/-- At most `n` generations, or all of them. -/
inductive Generations where
  | bounded (n : Nat)
  | unbounded
  deriving DecidableEq, Repr

namespace Generations

/-- Numbers from here on are read as no bound at all. -/
def limit : Nat := Nat.pow 2 64

def none : Generations := bounded 0

instance : Inhabited Generations := ⟨none⟩

/-- Whether a search at this depth goes on to the neighbours. -/
def allowsFrom (g : Generations) (depth : Nat) : Bool :=
  match g with
  | bounded n => depth < n
  | unbounded => true

/-- A run of digits before or after a plus: none or too many mean no bound. -/
def ofDigits (digits : List Char) : Generations :=
  if digits.isEmpty then unbounded
  else if natOfDigits digits < limit then bounded (natOfDigits digits)
  else unbounded

theorem allowsFrom_iff (n depth : Nat) : (bounded n).allowsFrom depth ↔ depth < n := by
  simp [allowsFrom]

end Generations

end DataLineage
