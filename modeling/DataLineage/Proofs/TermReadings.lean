import DataLineage.Proofs.TermGrammar
import Mathlib.Data.ENat.Basic

/-!
# What a term asks for

A term names an object and asks for numbers of generations, which may be of any size and may be
missing. The pluses of a text part it into these. Of the numbers, those from 2 ^ 64 on are kept as
no bound at all.

* `Term.reading?`: the name and the numbers of a text, by the parts between its pluses.
* `Term.ofChars?_eq_reading?`: terms are read so, and keep the name and the numbers.
-/

namespace DataLineage

/-- The number of generations that a run of digits asks for; without digits there is no limit. -/
def askedFor (digits : List Char) : ℕ∞ := if digits = [] then ⊤ else decimalValue digits

/-- What is kept of a number of generations. -/
def Generations.upTo (n : ℕ∞) : Generations :=
  if n < (2 ^ 64 : ℕ) then .bounded n.toNat else .unbounded

theorem Generations.upTo_zero : upTo 0 = none := by
  rw [upTo, if_pos (by exact_mod_cast Nat.two_pow_pos 64)]
  rfl

theorem Generations.upTo_askedFor (digits : List Char) :
    upTo (askedFor digits) = written digits := by
  rw [upTo, written, askedFor]
  by_cases h : digits = []
  · rw [if_pos h, if_pos h, if_neg not_top_lt]
  · rw [if_neg h, if_neg h]
    norm_cast

/-- A name and the numbers of generations of ancestors and descendants asked for. -/
structure Reading where
  name : String
  ancestors : ℕ∞ := 0
  descendants : ℕ∞ := 0
  deriving DecidableEq

/-- The term that keeps a reading. -/
def Reading.term (r : Reading) : Term := ⟨r.name, .upTo r.ancestors, .upTo r.descendants⟩

namespace Term

variable {text x y z w : List Char}

/-- **What a trimmed text asks for**, by the parts between its pluses. With one plus the digits
before it come first; they are a name only when nothing comes after. -/
def reading? (text : List Char) : Option Reading :=
  match text.splitOn '+' with
  | [x] => if x = [] then none else some ⟨String.ofList x, 0, 0⟩
  | [x, y] =>
    if x.all Char.isDigit ∧ ¬ y.all isBlank then
      some ⟨String.ofList (trimChars y), askedFor x, 0⟩
    else if y.all Char.isDigit ∧ ¬ x.all isBlank then
      some ⟨String.ofList (trimChars x), 0, askedFor y⟩
    else none
  | [x, y, z] =>
    if x.all Char.isDigit ∧ z.all Char.isDigit ∧ ¬ y.all isBlank then
      some ⟨String.ofList (trimChars y), askedFor x, askedFor z⟩
    else none
  | _ => none

/-- The pluses of a text part it. -/
theorem exists_parts (s : List Char) :
    '+' ∉ s ∨ (∃ x y, s = x ++ '+' :: y ∧ '+' ∉ x ∧ '+' ∉ y) ∨
      (∃ x y z, s = x ++ '+' :: (y ++ '+' :: z) ∧ '+' ∉ x ∧ '+' ∉ y ∧ '+' ∉ z) ∨
      ∃ x y z w, s = x ++ '+' :: (y ++ '+' :: (z ++ '+' :: w)) ∧ '+' ∉ x ∧ '+' ∉ y ∧ '+' ∉ z := by
  by_cases hs : '+' ∈ s
  · obtain ⟨x, s, rfl, hx⟩ := List.eq_append_cons_of_mem hs
    by_cases hs : '+' ∈ s
    · obtain ⟨y, s, rfl, hy⟩ := List.eq_append_cons_of_mem hs
      by_cases hs : '+' ∈ s
      · obtain ⟨z, w, rfl, hz⟩ := List.eq_append_cons_of_mem hs
        exact Or.inr (Or.inr (Or.inr ⟨x, y, z, w, rfl, hx, hy, hz⟩))
      · exact Or.inr (Or.inr (Or.inl ⟨x, y, s, rfl, hx, hy, hs⟩))
    · exact Or.inr (Or.inl ⟨x, s, rfl, hx, hs⟩)
  · exact Or.inl hs

/-- **Terms are read by the parts between the pluses**, and keep the name and the numbers. -/
theorem ofChars?_eq_reading? (text : List Char) :
    ofChars? text = (reading? (trimChars text)).map Reading.term := by
  obtain hs | ⟨x, y, hs, hx, hy⟩ | ⟨x, y, z, hs, hx, hy, hz⟩ | ⟨x, y, z, w, hs, hx, hy, hz⟩ :=
    exists_parts (trimChars text)
  · rw [reading?, List.splitOn_eq_singleton hs]
    by_cases hne : trimChars text = []
    · simp [ofChars?, hne]
    · simp [ofChars?_of_notMem hne hs, hne, Reading.term, Generations.upTo_zero]
  · rw [ofChars?_of_one hs hx hy, reading?, hs, List.splitOn_append_cons_self_of_not_mem hx,
      List.splitOn_eq_singleton hy]
    dsimp only
    split_ifs <;> simp only [Option.map_some, Option.map_none, Reading.term,
      Generations.upTo_askedFor, Generations.upTo_zero]
  · rw [ofChars?_of_two hs hx hy hz, reading?, hs, List.splitOn_append_cons_self_of_not_mem hx,
      List.splitOn_append_cons_self_of_not_mem hy, List.splitOn_eq_singleton hz]
    dsimp only
    split_ifs <;> simp only [Option.map_some, Option.map_none, Reading.term,
      Generations.upTo_askedFor]
  · have hcount : 3 ≤ (trimChars text).count '+' := by
      rw [hs]
      simp only [List.count_append, List.count_cons_self]
      omega
    rw [ofChars?_of_three hcount, reading?, hs, List.splitOn_append_cons_self_of_not_mem hx,
      List.splitOn_append_cons_self_of_not_mem hy, List.splitOn_append_cons_self_of_not_mem hz]
    cases hw : w.splitOn '+' with
    | nil => exact absurd hw (List.splitOn_ne_nil _ _)
    | cons => rfl

/-- A number too great to be kept. -/
example : reading? "18446744073709551616+orders".toList =
    some ⟨"orders", (18446744073709551616 : ℕ), 0⟩ := by decide +kernel

end Term

end DataLineage
