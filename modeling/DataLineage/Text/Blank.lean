/-!
# Blank characters

The characters with the Unicode property `White_Space`, and trimming by them.

* `isBlank_of_isWhitespace`: all that `Char.isWhitespace` takes for a space is blank.
* `trimChars_eq_nil_iff`: a text trims to nothing exactly when all of it is blank.
-/

namespace DataLineage

/-- The 25 characters with the Unicode property `White_Space`. -/
def isBlank (c : Char) : Bool :=
  (0x09 ≤ c.val && c.val ≤ 0x0D) || c.val == 0x20 || c.val == 0x85 || c.val == 0xA0 ||
    c.val == 0x1680 || (0x2000 ≤ c.val && c.val ≤ 0x200A) || c.val == 0x2028 ||
    c.val == 0x2029 || c.val == 0x202F || c.val == 0x205F || c.val == 0x3000

/-- All that `Char.isWhitespace` takes for a space is blank. -/
theorem isBlank_of_isWhitespace {c : Char} (h : c.isWhitespace) : isBlank c := by
  simp only [Char.isWhitespace, Bool.or_eq_true, decide_eq_true_eq] at h
  rcases h with ((h | h) | h) | h <;> subst h <;> decide

/-- A text without the blanks at its start. -/
def trimStart (cs : List Char) : List Char := cs.dropWhile isBlank

/-- A text without the blanks at its end. -/
def trimEnd (cs : List Char) : List Char := (cs.reverse.dropWhile isBlank).reverse

/-- A text without the blanks at its ends. -/
def trimChars (cs : List Char) : List Char := trimEnd (trimStart cs)

/-- A string without the blanks at its ends. -/
def trim (s : String) : String := String.ofList (trimChars s.toList)

/-- A string of blanks only, the empty one included. -/
def isBlankText (s : String) : Bool := s.toList.all isBlank

theorem dropWhile_isBlank_eq_nil_iff (cs : List Char) :
    cs.dropWhile isBlank = [] ↔ ∀ c ∈ cs, isBlank c := by
  induction cs with
  | nil => simp
  | cons c r ih => cases h : isBlank c <;> simp [List.dropWhile, h, ih]

/-- A text trims to nothing exactly when all of it is blank. -/
theorem trimChars_eq_nil_iff (cs : List Char) : trimChars cs = [] ↔ ∀ c ∈ cs, isBlank c := by
  rw [trimChars, trimEnd, List.reverse_eq_nil_iff, dropWhile_isBlank_eq_nil_iff, trimStart]
  simp only [List.mem_reverse]
  constructor
  · intro h c hc
    rw [← List.takeWhile_append_dropWhile (p := isBlank) (l := cs), List.mem_append] at hc
    exact hc.elim (fun hc => List.all_eq_true.1 List.all_takeWhile c hc) (h c)
  · exact fun h c hc => h c ((List.dropWhile_sublist isBlank).subset hc)

end DataLineage
