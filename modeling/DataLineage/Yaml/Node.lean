import DataLineage.Yaml.Token

/-!
# YAML nodes

A document is a tree of scalars, sequences and mappings. An alias stands for the node of its anchor;
anchors are numbered in the order in which new names come, and of the nodes with one number the last
answers to it.

* `Node.anchor_of_find?`: the node that is found has the anchor that was asked for.
-/

namespace DataLineage.Yaml

/-- What stands before a node: its anchor's number and its full tag. -/
structure Properties where
  anchor : Option Nat := none
  tag : Option String := none
  deriving DecidableEq, Repr, Inhabited

inductive Node where
  | reference (number : Nat)
  | scalar (p : Properties) (style : Style) (text : String)
  | sequence (p : Properties) (items : List Node)
  | mapping (p : Properties) (entries : List (Node × Node))
  deriving Repr, Inhabited

namespace Node

/-- The plain scalar without any text. -/
def empty : Node := .scalar {} .plain ""

def properties : Node → Properties
  | reference _ => {}
  | scalar p _ _ | sequence p _ | mapping p _ => p

mutual

/-- The last node with an anchor's number, in the order in which nodes begin. -/
def find? (number : Nat) : Node → Option Node
  | .reference _ => none
  | .scalar p style text =>
    if p.anchor = some number then some (.scalar p style text) else none
  | .sequence p items =>
    (findInItems? number items).or
      (if p.anchor = some number then some (.sequence p items) else none)
  | .mapping p entries =>
    (findInPairs? number entries).or
      (if p.anchor = some number then some (.mapping p entries) else none)

def findInItems? (number : Nat) : List Node → Option Node
  | [] => none
  | node :: rest => (findInItems? number rest).or (node.find? number)

def findInPairs? (number : Nat) : List (Node × Node) → Option Node
  | [] => none
  | (key, value) :: rest =>
    ((findInPairs? number rest).or (value.find? number)).or (key.find? number)

end

mutual

/-- The node that is found has the anchor that was asked for. -/
theorem anchor_of_find? {number : Nat} : ∀ {node found : Node}, node.find? number = some found →
    found.properties.anchor = some number
  | .reference _, _, h => by simp [find?] at h
  | .scalar p style text, found, h => by
    simp only [find?] at h
    split at h
    next hp => cases h; exact hp
    next => cases h
  | .sequence p items, found, h => by
    simp only [find?, Option.or_eq_some_iff] at h
    rcases h with h | ⟨_, h⟩
    · exact anchor_of_findInItems? h
    · split at h
      next hp => cases h; exact hp
      next => cases h
  | .mapping p entries, found, h => by
    simp only [find?, Option.or_eq_some_iff] at h
    rcases h with h | ⟨_, h⟩
    · exact anchor_of_findInPairs? h
    · split at h
      next hp => cases h; exact hp
      next => cases h

theorem anchor_of_findInItems? {number : Nat} : ∀ {items : List Node} {found : Node},
    findInItems? number items = some found → found.properties.anchor = some number
  | [], _, h => by simp [findInItems?] at h
  | node :: rest, found, h => by
    simp only [findInItems?, Option.or_eq_some_iff] at h
    exact h.elim anchor_of_findInItems? fun h => anchor_of_find? h.2

theorem anchor_of_findInPairs? {number : Nat} : ∀ {entries : List (Node × Node)} {found : Node},
    findInPairs? number entries = some found → found.properties.anchor = some number
  | [], _, h => by simp [findInPairs?] at h
  | (key, value) :: rest, found, h => by
    simp only [findInPairs?, Option.or_eq_some_iff] at h
    rcases h with (h | ⟨_, h⟩) | ⟨_, h⟩
    · exact anchor_of_findInPairs? h
    · exact anchor_of_find? h
    · exact anchor_of_find? h

end

end Node

/-! ### Building nodes from tokens -/

/-- What is left to build from, and the names that are known. -/
structure Builder where
  tokens : List Token
  /-- The anchors so far, with their numbers. -/
  anchors : List (String × Nat) := []
  /-- The tag handles, with their meanings. -/
  handles : List (String × String) := []

abbrev Build := StateT Builder Option

namespace Build

def peek : Build (Option Token) := do pure (← get).tokens.head?

def skip : Build Unit := modify fun b => { b with tokens := b.tokens.drop 1 }

/-- Takes the next token, which has to be a certain one. -/
def expect (t : Token) : Build Unit := do
  if (← peek) = some t then skip else failure

/-- Numbers an anchor. A name that comes again gets the number that a new name would get. -/
def declare (name : String) : Build Nat := do
  let b ← get
  let number := b.anchors.length
  let anchors :=
    if b.anchors.any (·.1 == name) then
      b.anchors.map fun a => if a.1 == name then (name, number) else a
    else b.anchors ++ [(name, number)]
  set { b with anchors }
  pure number

def resolveAlias (name : String) : Build Node := do
  match (← get).anchors.lookup name with
  | some number => pure (.reference number)
  | none => failure

/-- A tag in full. -/
def resolveTag (t : TagText) : Build String := do
  if t.handle.isEmpty then pure t.suffix
  else
    match (← get).handles.lookup t.handle with
    | some meaning => pure (meaning ++ t.suffix)
    | none => failure

/-- The anchor and the tag before a node, in either order. -/
def properties : Build Properties := do
  match ← peek with
  | some (.anchor name) =>
    skip
    let number ← declare name
    match ← peek with
    | some (.tag t) =>
      skip
      pure ⟨some number, some (← resolveTag t)⟩
    | _ => pure ⟨some number, none⟩
  | some (.tag t) =>
    skip
    match ← peek with
    | some (.anchor name) =>
      skip
      let number ← declare name
      pure ⟨some number, some (← resolveTag t)⟩
    | _ => pure ⟨none, some (← resolveTag t)⟩
  | _ => pure {}

/-- Whether the next token is one of some. The end of the tokens is none of them. -/
def isNext (ts : List Token) : Build Bool := do
  pure ((← peek).any ts.contains)

/-- An empty node where the next token is one of some, or else what `build` makes. -/
def unlessNext (ts : List Token) (build : Build Node) : Build Node := do
  if ← isNext ts then pure .empty else build

/-- The tag of a scalar; a lone mark stands for no tag. -/
def scalarTag (tag : Option String) : Option String := tag.filter (· != "!")

/-- A node that consists of its properties alone. -/
def bare (p : Properties) : Build Node :=
  if p.anchor.isSome || p.tag.isSome then pure (.scalar p .plain "") else failure

mutual

/-- A node. Inside a block it may be a block itself, and as a key or value in a block mapping it may
be a sequence without indentation of its own. -/
def node (inBlock unindented : Bool) : Nat → Build Node
  | 0 => failure
  | fuel + 1 => do
    match ← peek with
    | some (.reference name) =>
      skip
      resolveAlias name
    | _ =>
      let p ← properties
      -- what follows the properties decides the node; what cannot begin one leaves it empty
      match ← peek with
      | some .blockEntry =>
        if unindented then pure (.sequence p (← unindentedItems fuel)) else bare p
      | some (.scalar style text) =>
        skip
        pure (.scalar { p with tag := scalarTag p.tag } style text)
      | some .flowSequenceStart =>
        skip
        pure (.sequence p (← flowItems true fuel))
      | some .flowMappingStart =>
        skip
        pure (.mapping p (← flowEntries true fuel))
      | some .blockSequenceStart =>
        if inBlock then
          skip
          pure (.sequence p (← blockItems fuel))
        else bare p
      | some .blockMappingStart =>
        if inBlock then
          skip
          pure (.mapping p (← blockEntries fuel))
        else bare p
      | _ => bare p

def blockItems : Nat → Build (List Node)
  | 0 => failure
  | fuel + 1 => do
    if ← isNext [.blockEnd] then
      skip
      pure []
    else
      expect .blockEntry
      let item ← unlessNext [.blockEntry, .blockEnd] (node true false fuel)
      pure (item :: (← blockItems fuel))

/-- The items of a sequence that ends where no further item follows. -/
def unindentedItems : Nat → Build (List Node)
  | 0 => failure
  | fuel + 1 => do
    if ← isNext [.blockEntry] then
      skip
      let item ← unlessNext [.blockEntry, .key, .value, .blockEnd] (node true false fuel)
      pure (item :: (← unindentedItems fuel))
    else pure []

def blockEntries : Nat → Build (List (Node × Node))
  | 0 => failure
  | fuel + 1 => do
    if ← isNext [.blockEnd] then
      skip
      pure []
    else
      expect .key
      let key ← unlessNext [.key, .value, .blockEnd] (node true true fuel)
      let value ← if ← isNext [.value] then
          skip
          unlessNext [.key, .value, .blockEnd] (node true true fuel)
        else pure .empty
      pure ((key, value) :: (← blockEntries fuel))

/-- The items of a flow sequence. A key and its value without braces are a mapping of their own. -/
def flowItems (first : Bool) : Nat → Build (List Node)
  | 0 => failure
  | fuel + 1 => do
    if ← isNext [.flowSequenceEnd] then
      skip
      pure []
    else
      if !first then expect .flowEntry
      if ← isNext [.flowSequenceEnd] then
        skip
        pure []
      else
        let item ← if ← isNext [.key] then
            skip
            pure (Node.mapping {} [← flowPair fuel])
          else node false false fuel
        pure (item :: (← flowItems false fuel))

/-- A key and its value in a flow sequence. Where the key is empty, the token after the key's mark
counts as part of it. -/
def flowPair : Nat → Build (Node × Node)
  | 0 => failure
  | fuel + 1 => do
    let key ← if ← isNext [.value, .flowEntry, .flowSequenceEnd] then
        skip
        pure Node.empty
      else node false false fuel
    let value ← if ← isNext [.value] then
        skip
        unlessNext [.flowEntry, .flowSequenceEnd] (node false false fuel)
      else pure .empty
    pure (key, value)

/-- The entries of a flow mapping. A node without a key's mark is a key without a value. -/
def flowEntries (first : Bool) : Nat → Build (List (Node × Node))
  | 0 => failure
  | fuel + 1 => do
    if ← isNext [.flowMappingEnd] then
      skip
      pure []
    else
      if !first then expect .flowEntry
      if ← isNext [.flowMappingEnd] then
        skip
        pure []
      else
        let entry ← if ← isNext [.key] then do
            skip
            let key ← unlessNext [.value, .flowEntry, .flowMappingEnd] (node false false fuel)
            let value ← if ← isNext [.value] then
                skip
                unlessNext [.flowEntry, .flowMappingEnd] (node false false fuel)
              else pure .empty
            pure (key, value)
          else do
            let key ← node false false fuel
            pure (key, .empty)
        pure (entry :: (← flowEntries false fuel))

end

end Build

/-! ### Documents -/

/-- A document; one without a node is void. -/
structure Document where
  root : Option Node
  deriving Repr, Inhabited

namespace Document

/-- The versions a document may declare. -/
def isKnownVersion (major minor : Nat) : Bool := major == 1 && (minor == 1 || minor == 2)

/-- The handles that need no directive. -/
def defaultHandles : List (String × String) := [("!", "!"), ("!!", "tag:yaml.org,2002:")]

/-- The directives at the start, and the handles they declare. A version comes at most once, and so
does each handle. -/
def directives (versioned : Bool) (handles : List (String × String)) :
    List Token → Option (List (String × String) × List Token)
  | .directive (.version major minor) :: rest =>
    if versioned || !isKnownVersion major minor then none else directives true handles rest
  | .directive (.tag handle meaning) :: rest =>
    if handles.any (·.1 == handle) then none
    else directives versioned (handles ++ [(handle, meaning)]) rest
  | rest => some (handles, rest)

def hasDirective : List Token → Bool
  | .directive _ :: _ => true
  | _ => false

/-- Whether a document has no content of its own. -/
def isVoid : List Token → Bool
  | [] | .documentStart :: _ | .documentEnd :: _ | .directive _ :: _ => true
  | _ => false

/-- The content of a document and what follows it. -/
def content (handles : List (String × String)) (tokens : List Token) :
    Option (Node × List Token) := do
  let (root, b) ← (Build.node true false (2 * tokens.length + 2)).run
    { tokens, handles := handles ++ defaultHandles }
  pure (root, b.tokens)

/-- The one document that the tokens are. After its end only further ends may stand. -/
def ofTokens? (tokens : List Token) : Option Document := do
  if tokens.isEmpty then pure ⟨none⟩
  else
    let (handles, rest) ← directives false [] tokens
    let (root, rest) ← match rest with
      | .documentStart :: rest =>
        if isVoid rest then pure (Node.empty, rest) else content handles rest
      | rest => if hasDirective tokens then none else content handles rest
    if rest.all (· = .documentEnd) then pure ⟨some root⟩ else none

/-- The one document that a text is. -/
def ofText? (text : String) : Option Document := tokens? text.toList >>= ofTokens?

/-- The node that an alias stands for. -/
def target? (d : Document) (number : Nat) : Option Node := d.root.bind (·.find? number)

end Document

end DataLineage.Yaml
