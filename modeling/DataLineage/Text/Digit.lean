/-!
# Digits

The values of decimal and hexadecimal digits and of runs of them.

* `hexValue?_digitChar`: each digit that numbers are written with has its own value.
* `exists_of_mem_hexDigits`: a number in base 16 has no other digits.
* `le_foldl_appendDigit`: further digits never make a number less.
-/

namespace DataLineage

/-- The number that a further decimal digit makes of a number. -/
def appendDigit (n : Nat) (digit : Char) : Nat := 10 * n + (digit.toNat - '0'.toNat)

/-- The value of a run of decimal digits. -/
def natOfDigits (digits : List Char) : Nat := digits.foldl appendDigit 0

/-- The value of a hexadecimal digit. -/
def hexValue? (c : Char) : Option Nat :=
  if '0' ≤ c ∧ c ≤ '9' then some (c.toNat - '0'.toNat)
  else if 'a' ≤ c ∧ c ≤ 'f' then some (c.toNat - 'a'.toNat + 10)
  else if 'A' ≤ c ∧ c ≤ 'F' then some (c.toNat - 'A'.toNat + 10)
  else none

/-- The number with these digits in a base up to 16; there is at least one digit. -/
def natInBase? (base : Nat) (digits : List Char) : Option Nat :=
  if digits.isEmpty then none
  else digits.foldlM (fun n c => ((hexValue? c).filter (· < base)).map (base * n + ·)) 0

/-- The digits of a number in base 16, in lower case, without leading zeros. -/
def hexDigits (n : Nat) : List Char := Nat.toDigits 16 n

/-- Each digit that numbers are written with has its own value. -/
theorem hexValue?_digitChar : ∀ n < 16, hexValue? (Nat.digitChar n) = some n := by decide

/-- A number in base 16 has only digits of that base. -/
theorem exists_of_mem_hexDigits {n : Nat} {c : Char} (h : c ∈ hexDigits n) :
    ∃ d < 16, c = Nat.digitChar d := by
  unfold hexDigits at h
  induction n using Nat.strongRecOn with
  | ind n ih =>
    by_cases hn : n < 16
    · rw [Nat.toDigits_of_lt_base hn, List.mem_singleton] at h
      exact ⟨n, hn, h⟩
    · -- the digits of the quotient, and the remainder as the last digit
      rw [Nat.toDigits_of_base_le (by decide) (Nat.not_lt.1 hn), List.mem_append,
        List.mem_singleton] at h
      rcases h with h | h
      · exact ih (n / 16) (Nat.div_lt_self (by omega) (by decide)) h
      · exact ⟨n % 16, Nat.mod_lt n (by decide), h⟩

/-- Further digits never make a number less. -/
theorem le_foldl_appendDigit (n : Nat) (digits : List Char) : n ≤ digits.foldl appendDigit n := by
  induction digits generalizing n with
  | nil => exact Nat.le_refl n
  | cons d digits ih =>
    refine Nat.le_trans ?_ (ih (appendDigit n d))
    unfold appendDigit
    omega

end DataLineage
