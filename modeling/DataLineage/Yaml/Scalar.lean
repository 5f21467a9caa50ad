import DataLineage.Text.Digit
import DataLineage.Yaml.Cell

/-!
# YAML scalars

The four ways to write a text: plain, in single or double quotes, and as a block of lines. A line
break inside a plain or quoted scalar folds to a space, and further breaks stay.

* `length_blockBreaks`: leading breaks are taken off the text.
-/

namespace DataLineage.Yaml

/-- How a scalar is written. -/
inductive Style where
  | plain
  | singleQuoted
  | doubleQuoted
  | literal
  | folded
  deriving DecidableEq, Repr, Inhabited

/-- The blanks and breaks between two words of a scalar. -/
structure Gap where
  /-- The blanks before any break. -/
  blanks : List Char := []
  /-- Whether a line ends in the gap. -/
  broken : Bool := false
  /-- The first break, unless it was escaped. -/
  first : Option Char := none
  /-- The breaks after the first. -/
  more : List Char := []
  deriving DecidableEq, Repr, Inhabited

namespace Gap

def isEmpty (g : Gap) : Bool := g.blanks.isEmpty && !g.broken

/-- Adds a blank; blanks at the start of a line are no part of the text. -/
def addBlank (g : Gap) (c : Char) : Gap :=
  if g.broken then g else { g with blanks := g.blanks ++ [c] }

def addBreak (g : Gap) (c : Char) : Gap :=
  if g.broken then { g with more := g.more ++ [c] }
  else { broken := true, first := some c }

/-- A gap after an escaped break. -/
def escaped : Gap := { broken := true }

/-- What a gap stands for in the text. -/
def text (g : Gap) : List Char :=
  if g.broken then
    match g.first with
    | some c =>
      if c = '\n' then if g.more.isEmpty then [' '] else g.more
      else c :: g.more
    | none => g.more
  else g.blanks

/-- A text with a gap after it. -/
def appendTo (g : Gap) (text : String) : String := text ++ String.ofList g.text

end Gap

/-- A scalar's text, the cells after it, and whether a line ended between the two. -/
structure Scanned where
  text : String
  rest : List Cell
  broken : Bool := false

/-! ### Plain scalars -/

/-- Reads a plain scalar whose lines are indented by at least `indent` columns, after `text` and a
gap. -/
def plainText (inFlow : Bool) (indent : Int) (text : String) (gap : Gap) :
    List Cell → Option Scanned
  | [] => some ⟨text, [], gap.broken⟩
  | c :: rest =>
    let stop : Scanned := ⟨text, c :: rest, gap.broken⟩
    if c.isBlank then
      if gap.broken && c.char == '\t' && (c.column : Int) < indent then none
      else plainText inFlow indent text (gap.addBlank c.char) rest
    else if c.isBreak then plainText inFlow indent text (gap.addBreak c.char) rest
    else if c.isEnd then some stop
    else if !gap.isEmpty &&
        (c.char == '#' || atDocumentSign (c :: rest) ||
          (!inFlow && (c.column : Int) < indent)) then some stop
    else if inFlow && c.char == ':' &&
        (rest.head?.any fun d => d.isOneOf [',', '?', '[', ']', '\x7b', '\x7d']) then none
    else if c.char == ':' && gapAhead rest then some stop
    else if inFlow && c.isOneOf [',', '[', ']', '\x7b', '\x7d'] then some stop
    else plainText inFlow indent ((gap.appendTo text).push c.char) {} rest

/-! ### Quoted scalars -/

/-- Reads a scalar in single quotes, after its opening quote. Two quotes stand for one. -/
def singleQuotedText (text : String) (gap : Gap) : List Cell → Option Scanned
  | [] => none
  | c :: rest =>
    if c.isBlank then singleQuotedText text (gap.addBlank c.char) rest
    else if c.isBreak then singleQuotedText text (gap.addBreak c.char) rest
    else if c.isEnd || atDocumentSign (c :: rest) then none
    else if c.char == '\'' then
      match rest with
      | d :: rest' =>
        if d.char == '\'' then singleQuotedText ((gap.appendTo text).push '\'') {} rest'
        else some ⟨gap.appendTo text, rest, false⟩
      | [] => some ⟨gap.appendTo text, rest, false⟩
    else singleQuotedText ((gap.appendTo text).push c.char) {} rest

/-- The character that a backslash and this one stand for. -/
def escapedChar? (c : Char) : Option Char :=
  match c with
  | '0' => some '\x00'
  | 'a' => some '\x07'
  | 'b' => some '\x08'
  | 't' | '\t' => some '\t'
  | 'n' => some '\n'
  | 'v' => some '\x0b'
  | 'f' => some '\x0c'
  | 'r' => some '\r'
  | 'e' => some '\x1b'
  | ' ' => some ' '
  | '"' => some '"'
  | '/' => some '/'
  | '\\' => some '\\'
  | 'N' => some '\u0085'
  | '_' => some '\u00A0'
  | 'L' => some '\u2028'
  | 'P' => some '\u2029'
  | _ => none

/-- How many hexadecimal digits follow a backslash and this character. -/
def escapeDigits? (c : Char) : Option Nat :=
  match c with
  | 'x' => some 2
  | 'u' => some 4
  | 'U' => some 8
  | _ => none

/-- The character with these hexadecimal digits, if they are digits and there is one. -/
def charOfDigits? (cs : List Cell) (count : Nat) : Option Char := do
  if cs.length ≠ count then none
  let n ← natInBase? 16 (cs.map (·.char))
  if h : n.isValidChar then some (Char.ofNatAux n h) else none

/-- Reads a scalar in double quotes, after its opening quote. -/
def doubleQuotedText (text : String) (gap : Gap) : List Cell → Option Scanned
  | [] => none
  | c :: rest =>
    if c.isBlank then doubleQuotedText text (gap.addBlank c.char) rest
    else if c.isBreak then doubleQuotedText text (gap.addBreak c.char) rest
    else if c.isEnd || atDocumentSign (c :: rest) then none
    else if c.char == '"' then some ⟨gap.appendTo text, rest, false⟩
    else if c.char == '\\' then
      match rest with
      | [] => none
      | d :: rest' =>
        if d.isBreak then doubleQuotedText (gap.appendTo text) .escaped rest'
        else
          match escapedChar? d.char, escapeDigits? d.char with
          | some e, _ => doubleQuotedText ((gap.appendTo text).push e) {} rest'
          | none, some count =>
            match charOfDigits? (rest'.take count) count with
            | some e => doubleQuotedText ((gap.appendTo text).push e) {} (rest'.drop count)
            | none => none
          | none, none => none
    else doubleQuotedText ((gap.appendTo text).push c.char) {} rest
termination_by cs => cs.length
decreasing_by all_goals simp only [List.length_cons, List.length_drop]; omega

/-! ### Block scalars -/

/-- What happens to the breaks at the end of a block: only the last goes, all stay, or none does. -/
inductive Chomping where
  | clip
  | strip
  | keep
  deriving DecidableEq, Repr

/-- The header of a block: how it is chomped, and how far it is indented beyond its parent. -/
structure BlockHeader where
  chomping : Chomping := .clip
  increment : Option Nat := none

def chomping? (c : Cell) : Option Chomping :=
  match c.char with
  | '+' => some .keep
  | '-' => some .strip
  | _ => none

/-- A digit other than zero. -/
def increment? (c : Cell) : Option Nat :=
  if '1' ≤ c.char ∧ c.char ≤ '9' then some (c.char.toNat - '0'.toNat) else none

/-- Reads the signs after `|` or `>`, in either order. -/
def blockHeader (cs : List Cell) : BlockHeader × List Cell :=
  match cs with
  | a :: rest =>
    match chomping? a, increment? a with
    | some chomping, _ =>
      match rest with
      | b :: rest' =>
        match increment? b with
        | some n => (⟨chomping, some n⟩, rest')
        | none => (⟨chomping, none⟩, rest)
      | [] => (⟨chomping, none⟩, rest)
    | none, some n =>
      match rest with
      | b :: rest' =>
        match chomping? b with
        | some chomping => (⟨chomping, some n⟩, rest')
        | none => (⟨.clip, some n⟩, rest)
      | [] => (⟨.clip, some n⟩, rest)
    | none, none => ({}, cs)
  | [] => ({}, cs)

/-- What follows blanks, a comment, and the end of the line; nothing else may stand there. -/
def afterLineEnd (cs : List Cell) : Option (List Cell) :=
  let cs := cs.dropWhile Cell.isBlank
  let cs := if cs.head?.any (·.char == '#') then cs.dropWhile (!·.isBreakOrEnd) else cs
  match cs with
  | c :: rest => if c.isBreak then some rest else if c.isEnd then some cs else none
  | [] => some []

/-- Takes the breaks before a line of a block, with the spaces before them. The indentation is not
known yet when it is zero; then all spaces count, and `widest` is the widest line of them. -/
def blockBreaks (indent : Nat) (breaks : List Char) (widest : Nat) :
    List Cell → Option (List Char × Nat × List Cell)
  | [] => some (breaks, widest, [])
  | c :: rest =>
    if c.char == ' ' && (indent == 0 || c.column < indent) then
      blockBreaks indent breaks widest rest
    else
      let widest := max widest c.column
      if c.char == '\t' && (indent == 0 || c.column < indent) then none
      else if c.isBreak then blockBreaks indent (breaks ++ [c.char]) widest rest
      else some (breaks, widest, c :: rest)

/-- Leading breaks are taken off the text. -/
theorem length_blockBreaks {indent : Nat} {breaks : List Char} {widest : Nat} {cs : List Cell}
    {r : List Char × Nat × List Cell} (h : blockBreaks indent breaks widest cs = some r) :
    r.2.2.length ≤ cs.length := by
  induction cs generalizing breaks widest with
  | nil => cases h; exact Nat.le_refl _
  | cons c rest ih =>
    unfold blockBreaks at h
    split at h
    · exact Nat.le_succ_of_le (ih h)
    · simp only at h
      split at h
      · cases h
      · split at h
        · exact Nat.le_succ_of_le (ih h)
        · cases h; exact Nat.le_refl _

/-- The break at the start of some cells, and what follows it. -/
def takeBreak (cs : List Cell) : List Char × List Cell :=
  match cs with
  | c :: rest => if c.isBreak then ([c.char], rest) else ([], cs)
  | [] => ([], [])

theorem length_takeBreak (cs : List Cell) : (takeBreak cs).2.length ≤ cs.length := by
  unfold takeBreak
  split
  · split <;> simp
  · exact Nat.le_refl _

/-- A block as far as it is read: its text, the break that ends its last line, the breaks of the
empty lines after that, and whether the last line began with a blank. -/
structure Block where
  text : String := ""
  last : List Char := []
  breaks : List Char := []
  blank : Bool := false

/-- Joins the lines before with the next one, which begins with a blank or not. In a folded block
two lines that both begin otherwise become one. -/
def Block.join (b : Block) (literal blank : Bool) : String :=
  if !literal && b.last == ['\n'] && !b.blank && !blank then
    b.text ++ String.ofList (if b.breaks.isEmpty then [' '] else b.breaks)
  else b.text ++ String.ofList (b.last ++ b.breaks)

/-- Reads the lines of a block that are indented by `indent` columns. -/
def blockLines (literal : Bool) (indent : Nat) (b : Block) (cs : List Cell) :
    Option (Block × List Cell) :=
  match cs with
  | [] => some (b, [])
  | c :: rest =>
    if c.column = indent ∧ !c.isEnd then
      let line := c.char :: (rest.takeWhile (!·.isBreakOrEnd)).map (·.char)
      let text := b.join literal c.isBlank ++ String.ofList line
      let ended := takeBreak (rest.dropWhile (!·.isBreakOrEnd))
      match _h : blockBreaks indent [] 0 ended.2 with
      | none => none
      | some (breaks, _, next) =>
        blockLines literal indent ⟨text, ended.1, breaks, c.isBlank⟩ next
    else some (b, c :: rest)
termination_by cs.length
decreasing_by
  have h1 := length_blockBreaks _h
  have h2 := length_takeBreak (rest.dropWhile (!·.isBreakOrEnd))
  have h3 := (List.dropWhile_sublist (fun c : Cell => !c.isBreakOrEnd) (l := rest)).length_le
  simp only [List.length_cons, ended] at *
  omega

/-- Reads a block scalar after its sign, inside a block that is indented by `parent` columns. -/
def blockText (literal : Bool) (parent : Int) (cs : List Cell) : Option Scanned := do
  let (header, cs) := blockHeader cs
  let cs ← afterLineEnd cs
  let given := (header.increment.map fun n => n + parent.toNat).getD 0
  let (breaks, widest, cs) ← blockBreaks given [] 0 cs
  let indent := if given = 0 then max widest (max (parent + 1).toNat 1) else given
  let (b, cs) ← blockLines literal indent { breaks } cs
  let tail := match header.chomping with
    | .strip => []
    | .clip => b.last
    | .keep => b.last ++ b.breaks
  pure ⟨b.text ++ String.ofList tail, cs, false⟩

end DataLineage.Yaml
