import DataLineage.Yaml.Property

/-!
# YAML tokens

A text is cut into the marks that structure it and the scalars between them. Whether a scalar is a key
shows only at the colon after it; then a key mark, and where a mapping begins its start, are put in
before it. The indentation of lines becomes marks for the start and end of blocks.

* `Scanner.closeBlocks_le`: blocks are ended until none is indented further than the column.
-/

namespace DataLineage.Yaml

inductive Token where
  | directive (d : Directive)
  | documentStart
  | documentEnd
  | blockSequenceStart
  | blockMappingStart
  | blockEnd
  | flowSequenceStart
  | flowSequenceEnd
  | flowMappingStart
  | flowMappingEnd
  | blockEntry
  | flowEntry
  | key
  | value
  | reference (name : String)
  | anchor (name : String)
  | tag (t : TagText)
  | scalar (style : Style) (text : String)
  deriving DecidableEq, Repr

/-- A place where a key may have begun: its token, and whether the line has to go on with a key. -/
structure KeyPlace where
  token : Nat
  index : Nat
  line : Nat
  column : Nat
  required : Bool
  deriving Repr, Inhabited

/-- A text that is being cut. -/
structure Scanner where
  /-- The cells not looked at yet. -/
  cells : List Cell
  tokens : Array Token := #[]
  /-- Whether a key may begin here. -/
  keyAllowed : Bool := true
  /-- The last place where a key may have begun, in the innermost flow collection. -/
  keyPlace : Option KeyPlace := none
  /-- The same for the collections around it, the innermost first. -/
  outerPlaces : List (Option KeyPlace) := []
  /-- The column of the innermost block, and those of the blocks around it. -/
  indent : Int := -1
  outerIndents : List Int := []

namespace Scanner

def flowDepth (s : Scanner) : Nat := s.outerPlaces.length

def inFlow (s : Scanner) : Bool := 0 < s.flowDepth

/-- The column of the next cell. -/
def column (s : Scanner) : Nat := (s.cells.head?.map (·.column)).getD 0

def push (s : Scanner) (t : Token) : Scanner := { s with tokens := s.tokens.push t }

/-- Takes `n` cells as one token. -/
def take (s : Scanner) (n : Nat) (t : Token) : Scanner :=
  { s with tokens := s.tokens.push t, cells := s.cells.drop n }

/-- Skips blanks, comments and empty lines. A tab counts as a blank only where no key may begin, and
a new line outside flow collections may begin with a key. -/
def skipGap (inFlow keyAllowed inComment : Bool) : List Cell → Bool × List Cell
  | [] => (keyAllowed, [])
  | c :: rest =>
    if c.isBreak then skipGap inFlow (keyAllowed || !inFlow) false rest
    else if c.isEnd then (keyAllowed, c :: rest)
    else if inComment then skipGap inFlow keyAllowed true rest
    else if c.char == byteOrderMark && c.column == 0 then skipGap inFlow keyAllowed false rest
    else if c.char == ' ' || (c.char == '\t' && (inFlow || !keyAllowed)) then
      skipGap inFlow keyAllowed false rest
    else if c.char == '#' then skipGap inFlow keyAllowed true rest
    else (keyAllowed, c :: rest)

/-- Ends the blocks that are indented further than a column. -/
def closeBlocks (column : Int) (tokens : Array Token) (indent : Int) :
    List Int → Array Token × Int × List Int
  | [] => (tokens, indent, [])
  | outer :: rest =>
    if column < indent then closeBlocks column (tokens.push .blockEnd) outer rest
    else (tokens, indent, outer :: rest)

/-- Blocks are ended until none is indented further than the column. -/
theorem closeBlocks_le (column : Int) (tokens : Array Token) (indent : Int) (outer : List Int) :
    (closeBlocks column tokens indent outer).2.1 ≤ column ∨
      (closeBlocks column tokens indent outer).2.2 = [] := by
  fun_induction closeBlocks column tokens indent outer with
  | case1 => exact .inr rfl
  | case2 _ _ _ _ _ ih => exact ih
  | case3 _ _ _ _ h => exact .inl (Int.not_lt.1 h)

def unindent (s : Scanner) (column : Int) : Scanner :=
  if s.inFlow then s
  else
    let (tokens, indent, outerIndents) := closeBlocks column s.tokens s.indent s.outerIndents
    { s with tokens, indent, outerIndents }

/-- Begins a block at a column, if that is further in than the innermost block. Its start is put
before the token `place`. -/
def openBlock (s : Scanner) (column : Nat) (place : Nat) (t : Token) : Scanner :=
  if s.inFlow || (column : Int) ≤ s.indent then s
  else
    { s with
      tokens := s.tokens.insertIdxIfInBounds place t
      indent := column
      outerIndents := s.indent :: s.outerIndents }

/-- A key has to end on its line and within 1024 characters. -/
def isStale (here : Cell) (place : KeyPlace) : Bool :=
  place.line < here.line || place.index + 1024 < here.index

/-- Gives up a place where a key may have begun, unless there has to be a key. -/
def dropStale (here : Cell) : Option KeyPlace → Option (Option KeyPlace)
  | none => some none
  | some place =>
    if isStale here place then if place.required then none else some none
    else some (some place)

def dropStalePlaces (s : Scanner) : Option Scanner := do
  let here := s.cells.headD default
  let keyPlace ← dropStale here s.keyPlace
  let outerPlaces ← s.outerPlaces.mapM (dropStale here)
  pure { s with keyPlace, outerPlaces }

/-- Forgets the place where a key may have begun; fails where there has to be a key. -/
def forgetKey (s : Scanner) : Option Scanner :=
  if s.keyPlace.any (·.required) then none else some { s with keyPlace := none }

/-- Notes that a key may begin with the next token. -/
def noteKey (s : Scanner) : Option Scanner :=
  if s.keyAllowed then do
    let s ← s.forgetKey
    let here := s.cells.headD default
    let required := !s.inFlow && s.indent == (here.column : Int)
    pure { s with keyPlace := some ⟨s.tokens.size, here.index, here.line, here.column, required⟩ }
  else some s

/-! ### Tokens -/

/-- A sign at the start of a line that ends all blocks. -/
def lineSign (s : Scanner) : Option Scanner := do
  let s ← (s.unindent (-1)).forgetKey
  pure { s with keyAllowed := false }

def documentSign (s : Scanner) (t : Token) : Option Scanner := do
  pure ((← s.lineSign).take 3 t)

def directiveLine (s : Scanner) : Option Scanner := do
  let s ← s.lineSign
  let (d, cells) ← directive (s.cells.drop 1)
  pure { s.push (.directive d) with cells }

def openFlow (s : Scanner) (t : Token) : Option Scanner := do
  let s ← s.noteKey
  pure { s.take 1 t with
    keyPlace := none, outerPlaces := s.keyPlace :: s.outerPlaces, keyAllowed := true }

def closeFlow (s : Scanner) (t : Token) : Option Scanner := do
  let s ← s.forgetKey
  let s := match s.outerPlaces with
    | place :: outerPlaces => { s with keyPlace := place, outerPlaces }
    | [] => s
  pure { s.take 1 t with keyAllowed := false }

def flowEntry (s : Scanner) : Option Scanner := do
  let s ← s.forgetKey
  pure { s.take 1 .flowEntry with keyAllowed := true }

def blockEntry (s : Scanner) : Option Scanner := do
  if !s.inFlow && !s.keyAllowed then none
  let s := s.openBlock s.column s.tokens.size .blockSequenceStart
  let s ← s.forgetKey
  pure { s.take 1 .blockEntry with keyAllowed := true }

def keySign (s : Scanner) : Option Scanner := do
  if !s.inFlow && !s.keyAllowed then none
  let s := s.openBlock s.column s.tokens.size .blockMappingStart
  let s ← s.forgetKey
  pure { s.take 1 .key with keyAllowed := !s.inFlow }

/-- A colon. It makes a key of what may have begun as one. -/
def valueSign (s : Scanner) : Option Scanner :=
  match s.keyPlace with
  | some place =>
    -- the key's mark goes in first, so that the start of its block comes to stand before it
    let s := { s with tokens := s.tokens.insertIdxIfInBounds place.token .key }
    let s := s.openBlock place.column place.token .blockMappingStart
    some { s.take 1 .value with keyPlace := none, keyAllowed := false }
  | none =>
    if !s.inFlow && !s.keyAllowed then none
    else
      let s := s.openBlock s.column s.tokens.size .blockMappingStart
      some { s.take 1 .value with keyAllowed := !s.inFlow }

/-- An anchor, an alias, a tag or a flow scalar: something a key may begin with. -/
def keyPart (s : Scanner) (read : Scanner → Option (Token × List Cell)) : Option Scanner := do
  let s ← s.noteKey
  let (t, cells) ← read s
  pure { s.push t with cells, keyAllowed := false }

def blockScalar (s : Scanner) (style : Style) : Option Scanner := do
  let s ← s.forgetKey
  let r ← blockText (style == .literal) s.indent (s.cells.drop 1)
  pure { s.push (.scalar style r.text) with cells := r.rest, keyAllowed := true }

def scalarToken (style : Style) (r : Scanned) : Token × List Cell :=
  (.scalar style r.text, r.rest)

/-- A plain scalar. Where a line ends after it, a key may begin. -/
def plainScalar (s : Scanner) : Option Scanner := do
  let s ← s.noteKey
  let r ← plainText s.inFlow (s.indent + 1) "" {} s.cells
  let (t, cells) := scalarToken .plain r
  pure { s.push t with cells, keyAllowed := r.broken }

/-- Whether a plain scalar may begin with a character that is followed by some cells. -/
def beginsPlain (inFlow : Bool) (c : Char) (rest : List Cell) : Bool :=
  if c == '-' then !(rest.head?.any Cell.isBlank)
  else if c == '?' || c == ':' then !inFlow && !gapAhead rest
  else !(List.contains [',', '[', ']', '\x7b', '\x7d', '#', '&', '*', '!', '|', '>', '\'', '"', '%',
    '@', '\x60', '\t'] c)

/-- Takes the token that begins with the next cell, which is not the end. -/
def token (s : Scanner) (c : Cell) (rest : List Cell) : Option Scanner :=
  if c.column == 0 && c.char == '%' then s.directiveLine
  else if isDocumentSign '-' s.cells then s.documentSign .documentStart
  else if isDocumentSign '.' s.cells then s.documentSign .documentEnd
  else
    match c.char with
    | '[' => s.openFlow .flowSequenceStart
    | '\x7b' => s.openFlow .flowMappingStart
    | ']' => s.closeFlow .flowSequenceEnd
    | '\x7d' => s.closeFlow .flowMappingEnd
    | ',' => s.flowEntry
    | '*' => s.keyPart fun s => (anchorName (s.cells.drop 1)).map fun (n, r) => (.reference n, r)
    | '&' => s.keyPart fun s => (anchorName (s.cells.drop 1)).map fun (n, r) => (.anchor n, r)
    | '!' => s.keyPart fun s => (tag s.inFlow (s.cells.drop 1)).map fun (t, r) => (.tag t, r)
    | '\'' => s.keyPart fun s =>
      (singleQuotedText "" {} (s.cells.drop 1)).map (scalarToken .singleQuoted)
    | '"' => s.keyPart fun s =>
      (doubleQuotedText "" {} (s.cells.drop 1)).map (scalarToken .doubleQuoted)
    | char =>
      if char == '-' && gapAhead rest then s.blockEntry
      else if char == '?' && (s.inFlow || gapAhead rest) then s.keySign
      else if char == ':' && (s.inFlow || gapAhead rest) then s.valueSign
      else if char == '|' && !s.inFlow then s.blockScalar .literal
      else if char == '>' && !s.inFlow then s.blockScalar .folded
      else if beginsPlain s.inFlow char rest then s.plainScalar
      else none

/-- Cuts the text up to its end. Each token takes at least one cell, so as many steps as there are
cells are enough. -/
def run : Nat → Scanner → Option (Array Token)
  | 0, _ => none
  | fuel + 1, s => do
    let (keyAllowed, cells) := skipGap s.inFlow s.keyAllowed false s.cells
    -- a key that did not end on its line is none, and its line may end blocks
    let s ← dropStalePlaces { s with keyAllowed, cells }
    let s := s.unindent s.column
    match s.cells with
    | [] => none
    | c :: rest =>
      if c.isEnd then (s.unindent (-1)).forgetKey.map (·.tokens)
      else run fuel (← s.token c rest)

end Scanner

/-- The tokens of a text, unless it holds something that is no token. -/
def tokens? (text : List Char) : Option (List Token) :=
  if text.all isAllowed then
    let cells := cells text
    ((Scanner.run (cells.length + 1) { cells }).map Array.toList)
  else none

end DataLineage.Yaml
