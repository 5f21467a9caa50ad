/-!
# Places in a YAML text

A text is taken as a list of cells: its characters with their places. A line break of any kind is one
cell, and a last cell marks the end.

* `cells_ne_nil`: every text has at least its end.
-/

namespace DataLineage.Yaml

/-- A character and its place: how many characters come before it in the text, its line and its
column. -/
structure Cell where
  char : Char
  index : Nat
  line : Nat
  column : Nat
  deriving DecidableEq, Repr, Inhabited

/-- The mark of the end of a text. It is none of the characters a text may hold. -/
def endMark : Char := '\x00'

def byteOrderMark : Char := '\uFEFF'

/-- The characters a YAML text may hold. -/
def isAllowed (c : Char) : Bool :=
  c.val == 0x09 || c.val == 0x0A || c.val == 0x0D || (0x20 ≤ c.val && c.val ≤ 0x7E) ||
    c.val == 0x85 || (0xA0 ≤ c.val && c.val ≤ 0xD7FF) || (0xE000 ≤ c.val && c.val ≤ 0xFFFD) ||
    0x10000 ≤ c.val

/-- Line and paragraph separators, which stay as they are where other breaks become line feeds. -/
def isSeparator (c : Char) : Bool := c == '\u2028' || c == '\u2029'

/-- A line break as it is written. -/
def isRawBreak (c : Char) : Bool := c == '\n' || c == '\r' || c == '\u0085' || isSeparator c

/-- The cells of a text from a place on. -/
def cellsFrom (index line column : Nat) : List Char → List Cell
  | [] => [⟨endMark, index, line, column⟩]
  | '\r' :: '\n' :: rest => ⟨'\n', index, line, column⟩ :: cellsFrom (index + 2) (line + 1) 0 rest
  | c :: rest =>
    if isRawBreak c then
      ⟨if isSeparator c then c else '\n', index, line, column⟩ ::
        cellsFrom (index + 1) (line + 1) 0 rest
    else ⟨c, index, line, column⟩ :: cellsFrom (index + 1) line (column + 1) rest

/-- The cells of a text. A byte order mark at its start is left out. -/
def cells (text : List Char) : List Cell :=
  match text with
  | c :: rest => if c = byteOrderMark then cellsFrom 0 0 0 rest else cellsFrom 0 0 0 text
  | [] => cellsFrom 0 0 0 []

namespace Cell

def isBreak (c : Cell) : Bool := c.char == '\n' || isSeparator c.char

def isBlank (c : Cell) : Bool := c.char == ' ' || c.char == '\t'

def isEnd (c : Cell) : Bool := c.char == endMark

def isBreakOrEnd (c : Cell) : Bool := c.isBreak || c.isEnd

/-- Whether a word ends before this cell. -/
def isGap (c : Cell) : Bool := c.isBlank || c.isBreakOrEnd

end Cell

/-- Whether a cell holds one of some characters. -/
def Cell.isOneOf (c : Cell) (cs : List Char) : Bool := cs.contains c.char

/-- Whether a word ends at the start of some cells. -/
def gapAhead : List Cell → Bool
  | c :: _ => c.isGap
  | [] => true

/-- Whether three equal marks stand alone at the start of a line: the sign of a document's start
(`-`) or end (`.`). -/
def isDocumentSign (mark : Char) : List Cell → Bool
  | a :: b :: c :: rest =>
    a.column == 0 && a.char == mark && b.char == mark && c.char == mark && gapAhead rest
  | _ => false

/-- Whether a document's start or end is signed here. -/
def atDocumentSign (cs : List Cell) : Bool := isDocumentSign '-' cs || isDocumentSign '.' cs

/-- The characters of names: ASCII letters, digits, `_` and `-`. -/
def isNameChar (c : Char) : Bool := c.isAlphanum || c == '_' || c == '-'

theorem cellsFrom_ne_nil (i l k : Nat) (cs : List Char) : cellsFrom i l k cs ≠ [] := by
  unfold cellsFrom; split <;> (try split) <;> simp

/-- Every text has at least its end. -/
theorem cells_ne_nil (text : List Char) : cells text ≠ [] := by
  unfold cells
  split
  · split
    · exact cellsFrom_ne_nil _ _ _ _
    · exact cellsFrom_ne_nil _ _ _ _
  · exact cellsFrom_ne_nil _ _ _ _

end DataLineage.Yaml
