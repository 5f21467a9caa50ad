import DataLineage.Selection.Reach
import DataLineage.Text.Blank

/-!
# Selectors

A selector is a list of terms parted by commas. A term names an object and may take in generations
of its ancestors (before the name) and of its descendants (after it):

* `orders` is the object alone, `2+orders` also two generations of ancestors,
* `orders+` also all descendants, `+orders+3` all ancestors and three generations of descendants.

A blank selector means the whole graph. Reading a selector never fails: terms that are not well
formed are left out and unknown names select nothing, since a selector is used while it is typed.

* `Term.parse?_eq_none_of_blank`: a blank text is no term.
* `Selector.parse_eq_all_iff`: exactly the blank texts mean the whole graph.
-/

namespace DataLineage

/-- A named object and the generations taken in on each side. -/
structure Term where
  name : String
  ancestors : Generations := .none
  descendants : Generations := .none
  deriving DecidableEq, Repr, Inhabited

namespace Term

/-- Parts a text at its first plus. -/
def atFirstPlus? : List Char → Option (List Char × List Char)
  | [] => none
  | c :: rest =>
    if c = '+' then some ([], rest)
    else (atFirstPlus? rest).map fun (front, back) => (c :: front, back)

/-- Parts a text at its last plus. -/
def atLastPlus? : List Char → Option (List Char × List Char)
  | [] => none
  | c :: rest =>
    match atLastPlus? rest with
    | some (front, back) => some (c :: front, back)
    | none => if c = '+' then some ([], rest) else none

/-- Whether a text is a run of ASCII digits, possibly an empty one. -/
def isDigits (cs : List Char) : Bool := cs.all Char.isDigit

/-- Takes the generations of descendants off the end of a term: a plus and digits after it. -/
def splitDescendants (cs : List Char) : List Char × Generations :=
  match atLastPlus? cs with
  | some (front, back) => if isDigits back then (front, .ofDigits back) else (cs, .none)
  | none => (cs, .none)

/-- Takes the generations of ancestors off the start of a term: digits and a plus after them, unless
no name would be left. -/
def splitAncestors (cs : List Char) : Generations × List Char :=
  match atFirstPlus? cs with
  | some (front, back) =>
    -- in `2+` the digits are the name and the plus stands for its descendants
    if isDigits front && !(trimChars (splitDescendants back).1).isEmpty then
      (.ofDigits front, back)
    else (.none, cs)
  | none => (.none, cs)

/-- Reads a term. What is left between the generations is the name; it holds no plus. -/
def ofChars? (text : List Char) : Option Term :=
  let cs := trimChars text
  if cs.isEmpty then none
  else
    -- the ancestors come off first, so the plus of `+orders` is theirs
    let (ancestors, rest) := splitAncestors cs
    let (middle, descendants) := splitDescendants rest
    let name := trimChars middle
    if name.isEmpty || name.contains '+' then none
    else some ⟨String.ofList name, ancestors, descendants⟩

def parse? (text : String) : Option Term := ofChars? text.toList

/-- The generations of ancestors as written before the name. -/
def ancestorsText : Generations → String
  | .bounded 0 => ""
  | .bounded n => toString n ++ "+"
  | .unbounded => "+"

/-- The generations of descendants as written after the name. -/
def descendantsText : Generations → String
  | .bounded 0 => ""
  | .bounded n => "+" ++ toString n
  | .unbounded => "+"

def display (t : Term) : String :=
  ancestorsText t.ancestors ++ t.name ++ descendantsText t.descendants

/-- The ids a term selects: the first node of that name and what it reaches on both sides. -/
def select (t : Term) (g : Graph) : Std.TreeSet String :=
  match g.idForName? t.name with
  | none => ∅
  | some start =>
    g.reachableIds start .ancestors t.ancestors ∪ g.reachableIds start .descendants t.descendants

/-- A blank text is no term. -/
theorem parse?_eq_none_of_blank {text : String} (h : isBlankText text) : parse? text = none := by
  have : trimChars text.toList = [] :=
    (trimChars_eq_nil_iff _).2 (List.all_eq_true.1 h)
  simp [parse?, ofChars?, this]

end Term

/-- What part of the graph to show: all of it, or what some terms select together. -/
inductive Selector where
  | all
  | terms (ts : List Term)
  deriving DecidableEq, Repr, Inhabited

namespace Selector

/-- The terms between the commas of a text; what is no term is left out. -/
def parseTerms (text : String) : List Term :=
  (text.toList.splitOn ',').filterMap Term.ofChars?

def parse (text : String) : Selector :=
  if isBlankText text then .all else .terms (parseTerms text)

def display : Selector → String
  | all => ""
  | terms ts => ", ".intercalate (ts.map Term.display)

def isAll : Selector → Bool
  | all => true
  | terms _ => false

/-- The ids a selector selects in a graph. -/
def select (s : Selector) (g : Graph) : Std.TreeSet String :=
  match s with
  | all => .ofList g.nodeIds
  | terms ts => ts.foldl (fun ids t => ids ∪ t.select g) ∅

/-- Exactly the blank texts mean the whole graph. -/
theorem parse_eq_all_iff (text : String) : parse text = .all ↔ isBlankText text := by
  unfold parse; split <;> simp_all

end Selector

/-- The part of a graph that a selector's text selects. -/
def Graph.selected (g : Graph) (text : String) : Graph :=
  let ids := (Selector.parse text).select g
  g.restrict ids.contains

end DataLineage
