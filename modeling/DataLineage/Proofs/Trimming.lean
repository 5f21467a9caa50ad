import DataLineage.Text.Blank
import Mathlib.Data.List.DropRight

/-!
# Trimmed texts

Trimming takes the blanks off both ends of a text and nothing else.

* `trimmed_trimChars`: what is left has no blank at an end.
* `trimChars_eq_self_iff`: exactly the texts without blanks at their ends stay as they are.
* `count_trimChars`: of a character that is no blank, every occurrence stays.
-/

namespace DataLineage

variable {cs : List Char} {c : Char}

/-- A text with no blank at either end. -/
structure Trimmed (cs : List Char) : Prop where
  head : ∀ c ∈ cs.head?, isBlank c = false
  last : ∀ c ∈ cs.getLast?, isBlank c = false

theorem dropWhile_isBlank_of_head (h : ∀ c ∈ cs.head?, isBlank c = false) :
    cs.dropWhile isBlank = cs := by
  cases cs with
  | nil => rfl
  | cons c cs =>
    have hc : isBlank c = false := h c rfl
    exact List.dropWhile_cons_of_neg (by simp [hc])

/-- What is left has no blank at an end. -/
theorem trimmed_trimChars (cs : List Char) : Trimmed (trimChars cs) := by
  constructor
  · intro c hc
    -- the end of the text goes last, so the head is that of a text without blanks at its start
    have hprefix : trimChars cs <+: cs.dropWhile isBlank := List.rdropWhile_prefix ..
    obtain ⟨tail, htail⟩ := hprefix
    have hhead : (cs.dropWhile isBlank).head? = some c := by
      rw [← htail, List.head?_append, Option.mem_def.1 hc, Option.some_or]
    have hnot := List.head?_dropWhile_not isBlank cs
    rw [hhead] at hnot
    exact hnot
  · intro c hc
    have hlast : (trimChars cs).reverse.head? = some c := by rw [List.head?_reverse]; exact hc
    rw [trimChars, trimEnd, List.reverse_reverse] at hlast
    have hnot := List.head?_dropWhile_not isBlank (trimStart cs).reverse
    rw [hlast] at hnot
    exact hnot

/-- Exactly the texts without blanks at their ends stay as they are. -/
theorem trimChars_eq_self_iff : trimChars cs = cs ↔ Trimmed cs := by
  constructor
  · intro h
    rw [← h]
    exact trimmed_trimChars cs
  · intro h
    have hreverse : ∀ c ∈ cs.reverse.head?, isBlank c = false := by
      rw [List.head?_reverse]
      exact h.last
    rw [trimChars, trimStart, dropWhile_isBlank_of_head h.head, trimEnd,
      dropWhile_isBlank_of_head hreverse, List.reverse_reverse]

theorem count_dropWhile_isBlank (hc : isBlank c = false) (cs : List Char) :
    (cs.dropWhile isBlank).count c = cs.count c := by
  have hnot : c ∉ cs.takeWhile isBlank := by
    intro hmem
    rw [List.mem_takeWhile_imp hmem] at hc
    cases hc
  have hcount : (cs.takeWhile isBlank ++ cs.dropWhile isBlank).count c = cs.count c := by
    rw [List.takeWhile_append_dropWhile]
  rw [List.count_append, List.count_eq_zero_of_not_mem hnot] at hcount
  omega

/-- Of a character that is no blank, every occurrence stays. -/
theorem count_trimChars (hc : isBlank c = false) (cs : List Char) :
    (trimChars cs).count c = cs.count c := by
  rw [trimChars, trimEnd, List.count_reverse, count_dropWhile_isBlank hc, List.count_reverse,
    trimStart, count_dropWhile_isBlank hc]

theorem mem_trimChars_iff (hc : isBlank c = false) : c ∈ trimChars cs ↔ c ∈ cs := by
  rw [← List.count_pos_iff, count_trimChars hc, List.count_pos_iff]

theorem isEmpty_trimChars (cs : List Char) : (trimChars cs).isEmpty = cs.all isBlank := by
  rw [Bool.eq_iff_iff, List.isEmpty_iff, trimChars_eq_nil_iff, List.all_eq_true]

theorem trim_eq_empty_iff {s : String} : trim s = "" ↔ isBlankText s := by
  rw [trim, String.ofList_eq_empty_iff, ← List.isEmpty_iff, isEmpty_trimChars, isBlankText]

end DataLineage
