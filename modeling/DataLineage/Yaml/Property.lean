import DataLineage.Yaml.Scalar

/-!
# Anchors, tags and directives

The names that stand before a node or before a document. Tags are URIs, shortened by a handle.
-/

namespace DataLineage.Yaml

/-- A tag as written: its handle, which is empty for a whole URI, and what follows the handle. -/
structure TagText where
  handle : String
  suffix : String
  deriving DecidableEq, Repr, Inhabited

/-- What a document declares before it starts. -/
inductive Directive where
  | version (major minor : Nat)
  /-- A tag handle and what it stands for. -/
  | tag (handle meaning : String)
  deriving DecidableEq, Repr

/-- The name at the start of some cells, possibly empty, and what follows it. -/
def takeName (cs : List Cell) : List Char × List Cell :=
  ((cs.takeWhile fun c => isNameChar c.char).map (·.char),
    cs.dropWhile fun c => isNameChar c.char)

/-- An anchor's or alias's name. A blank, a break or a mark has to follow it. -/
def anchorName (cs : List Cell) : Option (String × List Cell) :=
  let (name, rest) := takeName cs
  if name.isEmpty then none
  else if gapAhead rest ||
      (rest.head?.any fun c => c.isOneOf ['?', ':', ',', ']', '\x7d', '%', '@', '\x60']) then
    some (String.ofList name, rest)
  else none

/-- The characters of URIs. Those of flow collections belong to it only within `<` and `>` and in
directives. -/
def isUriChar (whole : Bool) (c : Char) : Bool :=
  isNameChar c ||
    [';', '/', '?', ':', '@', '&', '=', '+', '$', '.', '%', '!', '~', '*', '\'', '(', ')'].contains c ||
    (whole && [',', '[', ']'].contains c)

/-- The bytes of a URI, and what follows it. A percent sign and two hexadecimal digits are one
byte. -/
def uriBytes (whole : Bool) (cs : List Cell) : Option (List UInt8 × List Cell) :=
  match cs with
  | [] => some ([], [])
  | c :: rest =>
    if isUriChar whole c.char then
      if c.char = '%' then
        match rest with
        | a :: b :: rest' => do
          let byte ← natInBase? 16 [a.char, b.char]
          let (bytes, after) ← uriBytes whole rest'
          pure (UInt8.ofNat byte :: bytes, after)
        | _ => none
      else do
        let (bytes, after) ← uriBytes whole rest
        pure (UInt8.ofNat c.char.toNat :: bytes, after)
    else some ([], cs)

/-- A URI, and what follows it. -/
def uri (whole : Bool) (cs : List Cell) : Option (String × List Cell) := do
  let (bytes, rest) ← uriBytes whole cs
  let text ← String.fromUTF8? (ByteArray.mk bytes.toArray)
  pure (text, rest)

def nonEmptyUri (whole : Bool) (cs : List Cell) : Option (String × List Cell) :=
  (uri whole cs).filter fun r => !r.1.isEmpty

/-- A handle without its first mark: a name, whether a mark closes it, and what follows it. -/
def tagHandle (cs : List Cell) : List Char × Bool × List Cell :=
  match takeName cs with
  | (name, c :: rest) => if c.char = '!' then (name, true, rest) else (name, false, c :: rest)
  | (name, []) => (name, false, [])

def closedHandle (name : List Char) : String := String.ofList ('!' :: name ++ ['!'])

/-- A tag after its first mark, without a look at what follows it. -/
def tagBody (cs : List Cell) : Option (TagText × List Cell) :=
  match cs with
  | c :: rest =>
    if c.char = '<' then do
      let (text, rest) ← nonEmptyUri true rest
      match rest with
      | d :: rest => if d.char = '>' then some (⟨"", text⟩, rest) else none
      | [] => none
    else
      match tagHandle cs with
      | (name, true, rest) => do
        let (text, rest) ← nonEmptyUri false rest
        pure (⟨closedHandle name, text⟩, rest)
      | (name, false, rest) => do
        let (text, rest) ← uri false rest
        let suffix := String.ofList name ++ text
        pure (if suffix.isEmpty then ⟨"", "!"⟩ else ⟨"!", suffix⟩, rest)
  | [] => none

/-- A tag after its first mark. A blank or a break has to follow it, or in a flow collection a
comma. -/
def tag (inFlow : Bool) (cs : List Cell) : Option (TagText × List Cell) :=
  (tagBody cs).filter fun r =>
    gapAhead r.2 || (inFlow && r.2.head?.any fun c => c.char == ',')

/-! ### Directives -/

/-- A number of at most nine digits. -/
def versionNumber (cs : List Cell) : Option (Nat × List Cell) :=
  let digits := cs.takeWhile fun c => c.char.isDigit
  if digits.isEmpty || 9 < digits.length then none
  else some (natOfDigits (digits.map (·.char)), cs.drop digits.length)

def skipBlanks (cs : List Cell) : List Cell := cs.dropWhile Cell.isBlank

/-- The version that a directive names. -/
def versionDirective (cs : List Cell) : Option (Directive × List Cell) := do
  let (major, rest) ← versionNumber (skipBlanks cs)
  match rest with
  | c :: rest =>
    if c.char = '.' then
      let (minor, rest) ← versionNumber rest
      pure (.version major minor, rest)
    else none
  | [] => none

/-- The tag handle that a directive declares, and its meaning. -/
def tagDirective (cs : List Cell) : Option (Directive × List Cell) := do
  match skipBlanks cs with
  | c :: rest =>
    if c.char = '!' then
      let (name, closed, rest) := tagHandle rest
      if !closed && !name.isEmpty then none
      else if !(rest.head?.any Cell.isBlank) then none
      else
        let (meaning, rest) ← nonEmptyUri true (skipBlanks rest)
        if gapAhead rest then
          pure (.tag (if closed then closedHandle name else "!") meaning, rest)
        else none
    else none
  | [] => none

/-- A directive after its first mark, with the rest of its line. -/
def directive (cs : List Cell) : Option (Directive × List Cell) := do
  let (name, rest) := takeName cs
  if !gapAhead rest then none
  let (d, rest) ← match String.ofList name with
    | "YAML" => versionDirective rest
    | "TAG" => tagDirective rest
    | _ => none
  let rest ← afterLineEnd rest
  pure (d, rest)

end DataLineage.Yaml
