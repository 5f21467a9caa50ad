import DataLineage.Json.Token

/-!
# Writing JSON

Trees of texts, and their compact text: no space between tokens, members in order, and only those
characters escaped that have to be.

* `mem_writeChar`: no control character stands inside quotes.
-/

namespace DataLineage.Json

/-- A tree to be written. -/
inductive Tree where
  | null
  | text (s : String)
  | array (items : List Tree)
  | object (members : List (String × Tree))
  deriving Repr

/-- A character inside quotes. -/
def writeChar (c : Char) : List Char :=
  match c with
  | '"' => ['\\', '"']
  | '\\' => ['\\', '\\']
  | '\x08' => ['\\', 'b']
  | '\x0c' => ['\\', 'f']
  | '\n' => ['\\', 'n']
  | '\r' => ['\\', 'r']
  | '\t' => ['\\', 't']
  | c =>
    if c.val < 0x20 then
      ['\\', 'u', '0', '0', Nat.digitChar (c.toNat / 16), Nat.digitChar (c.toNat % 16)]
    else [c]

/-- No control character stands inside quotes. -/
theorem mem_writeChar {c d : Char} (h : d ∈ writeChar c) : 0x20 ≤ d.val := by
  unfold writeChar at h
  split at h
  iterate 7
    · simp only [List.mem_cons, List.not_mem_nil, or_false] at h
      rcases h with h | h <;> subst h <;> decide
  split at h
  next hc =>
    have hc : c.toNat < 0x20 := hc
    simp only [List.mem_cons, List.not_mem_nil, or_false] at h
    rcases h with h | h | h | h | h | h <;> subst h
    iterate 4 decide
    all_goals
      revert hc
      generalize c.toNat = n
      revert n
      decide
  next => simp_all

def writeText (s : String) : List Char := '"' :: s.toList.flatMap writeChar ++ ['"']

mutual

def Tree.write : Tree → List Char
  | .null => ['n', 'u', 'l', 'l']
  | .text s => writeText s
  | .array [] => ['[', ']']
  | .array (v :: rest) => '[' :: v.write ++ writeItems rest
  | .object [] => ['\x7b', '\x7d']
  | .object ((name, v) :: rest) =>
    '\x7b' :: writeText name ++ ':' :: v.write ++ writeMembers rest

/-- The items after the first, and the closing mark. -/
def writeItems : List Tree → List Char
  | [] => [']']
  | v :: rest => ',' :: v.write ++ writeItems rest

/-- The members after the first, and the closing mark. -/
def writeMembers : List (String × Tree) → List Char
  | [] => ['\x7d']
  | (name, v) :: rest => ',' :: writeText name ++ ':' :: v.write ++ writeMembers rest

end

end DataLineage.Json
