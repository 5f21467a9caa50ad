import DataLineage.Text.Digit
import DataLineage.Text.Hidden

/-!
# Quoted text

A text between double quotes, with all that would not show as itself written as an escape.

* `isHidden_of_mem_quoted`: a quoted text shows all its characters.
-/

namespace DataLineage

/-- A character as it stands inside quotes. -/
def quotedChar (c : Char) : List Char :=
  match c with
  | '"' => ['\\', '"']
  | '\\' => ['\\', '\\']
  | '\n' => ['\\', 'n']
  | '\r' => ['\\', 'r']
  | '\t' => ['\\', 't']
  | '\x00' => ['\\', '0']
  | c => if isHidden c then '\\' :: 'u' :: '\x7b' :: hexDigits c.toNat ++ ['\x7d'] else [c]

/-- A text between double quotes. -/
def quoted (s : String) : String :=
  String.ofList ('"' :: s.toList.flatMap quotedChar ++ ['"'])

theorem isHidden_of_mem_hexDigits {n : Nat} {c : Char} (h : c ∈ hexDigits n) :
    isHidden c = false := by
  have hdigits : ∀ d < 16, 0x20 ≤ (Nat.digitChar d).toNat ∧ (Nat.digitChar d).toNat < 0x7F := by
    decide
  obtain ⟨d, hd, rfl⟩ := exists_of_mem_hexDigits h
  exact isHidden_of_ascii (hdigits d hd).1 (hdigits d hd).2

/-- An escape shows, and what is not escaped does so itself. -/
theorem isHidden_of_mem_quotedChar {c d : Char} (h : d ∈ quotedChar c) : isHidden d = false := by
  unfold quotedChar at h
  split at h
  iterate 6
    · simp only [List.mem_cons, List.not_mem_nil, or_false] at h
      rcases h with rfl | rfl <;> exact isHidden_of_ascii (by decide) (by decide)
  split at h
  next =>
    simp only [List.mem_cons, List.mem_append, List.cons_append, List.not_mem_nil, or_false] at h
    rcases h with rfl | rfl | rfl | h | rfl
    · exact isHidden_of_ascii (by decide) (by decide)
    · exact isHidden_of_ascii (by decide) (by decide)
    · exact isHidden_of_ascii (by decide) (by decide)
    · exact isHidden_of_mem_hexDigits h
    · exact isHidden_of_ascii (by decide) (by decide)
  next hshown =>
    obtain rfl := List.mem_singleton.1 h
    exact Bool.not_eq_true _ ▸ hshown

/-- **A quoted text shows all its characters**, those of the text and the quotes around it. -/
theorem isHidden_of_mem_quoted {s : String} {c : Char} (h : c ∈ (quoted s).toList) :
    isHidden c = false := by
  have hquote : isHidden '"' = false := isHidden_of_ascii (by decide) (by decide)
  rw [quoted, String.toList_ofList, List.cons_append, List.mem_cons, List.mem_append,
    List.mem_flatMap, List.mem_singleton] at h
  rcases h with rfl | ⟨d, -, h⟩ | rfl
  · exact hquote
  · exact isHidden_of_mem_quotedChar h
  · exact hquote

end DataLineage
