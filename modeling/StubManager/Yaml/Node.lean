import StubManager.Yaml.Layout

/-!
# YAML documents

A `Node` is a scalar, a sequence, a mapping or an alias, and `Node.ofTokens?` puts one together
from tokens. `Document.parse?` reads a whole text, which holds one document or none.
-/

namespace StubManager.Yaml

/-- A node of a document. The number of an anchor is what an alias refers to. -/
inductive Node where
  /-- `plain` says that the scalar has no quotes and is no block. -/
  | scalar (anchor : Option Nat) (tag : Option (List Char)) (text : List Char) (plain : Bool)
  | sequence (anchor : Option Nat) (items : List Node)
  | mapping (anchor : Option Nat) (entries : List (Node × Node))
  | reference (number : Nat)
deriving Repr, Inhabited

namespace Node

/-- What stands where a node is left out. -/
def empty : Node := .scalar none none [] true

/-- The anchor that names the node. -/
def anchor? : Node → Option Nat
  | scalar anchor .. | sequence anchor _ | mapping anchor _ => anchor
  | reference _ => none

/-- The anchored nodes of a tree with their numbers, outer ones first. -/
def anchored (node : Node) : List (Nat × Node) :=
  let own := node.anchor?.toList.map (·, node)
  match node with
  | sequence _ items => own ++ anchoredItems items
  | mapping _ entries => own ++ anchoredEntries entries
  | _ => own
where
  /-- The anchored nodes of a list. -/
  anchoredItems : List Node → List (Nat × Node)
    | [] => []
    | node :: more => node.anchored ++ anchoredItems more
  /-- The anchored nodes of the entries of a mapping. -/
  anchoredEntries : List (Node × Node) → List (Nat × Node)
    | [] => []
    | (key, value) :: more => key.anchored ++ value.anchored ++ anchoredEntries more

end Node

/-! ## From tokens to nodes -/

/-- What is known while a document is put together. -/
structure Composition where
  tokens : List Token
  /-- The names of anchors so far, with their numbers. -/
  anchors : List (List Char × Nat) := []
  /-- What the handles of tags stand for. -/
  handles : List (List Char × List Char) := []
deriving Repr, Inhabited

/-- A step of putting a document together. -/
abbrev Compose := StateT Composition Option

namespace Compose

/-- The next token, which stays. -/
def peek : Compose (Option Token) := do return (← get).tokens.head?

/-- Passes over one token. -/
def skip : Compose Unit := modify fun c => { c with tokens := c.tokens.drop 1 }

/-- Whether the next token is one of those given. -/
def sees (tokens : List Token) : Compose Bool := do return (← peek).any tokens.contains

/-- Gives an anchor its number, which is how many other names there are so far. -/
def anchor (name : List Char) : Compose Nat := do
  let c ← get
  let number := c.anchors.length
  let others := c.anchors.filter (·.1 ≠ name)
  set { c with anchors := others ++ [(name, number)] }
  return number

/-- The number that an alias refers to. -/
def number (name : List Char) : Compose Nat := do return (← ((← get).anchors.lookup name))

/-- The full form of a tag. -/
def resolveTag (handle suffix : List Char) : Compose (List Char) := do
  if handle.isEmpty then return suffix else return (← (← get).handles.lookup handle) ++ suffix

/-- The anchor, if one stands next. -/
def anchorName? : Compose (Option (List Char)) := do
  match ← peek with
  | some (.anchor name) => skip; return some name
  | _ => return none

/-- The tag, if one stands next. -/
def tag? : Compose (Option (List Char × List Char)) := do
  match ← peek with
  | some (.tag handle suffix) => skip; return some (handle, suffix)
  | _ => return none

/-- The anchor and the tag in front of a node, in either order. -/
def properties : Compose (Option Nat × Option (List Char)) := do
  let early ← anchorName?
  let tag ← tag?
  let name ← if early.isNone && tag.isSome then anchorName? else pure early
  let tag ← tag.mapM fun (handle, suffix) => resolveTag handle suffix
  return (← name.mapM anchor, tag)

mutual

/-- A node. `block` allows collections by indentation, and `level` sequences whose hyphens stand
in the column of the mapping around them. A lone exclamation mark before a scalar is no tag. -/
def node (block level : Bool) : (fuel : Nat) → Compose Node
  | 0 => failure
  | fuel + 1 => do
    match ← peek with
    | some (.reference name) => skip; return .reference (← number name)
    | _ =>
      let (anchor, tag) ← properties
      match ← peek with
      | some (.scalar text plain) => skip; return .scalar anchor (tag.filter (· ≠ ['!'])) text plain
      | some .flowSequenceStart => skip; return .sequence anchor (← flowItems true fuel)
      | some .flowMappingStart => skip; return .mapping anchor (← flowEntries true fuel)
      | token =>
        if level ∧ token = some .blockEntry then return .sequence anchor (← levelItems fuel)
        else if block ∧ token = some .blockSequenceStart then
          skip; return .sequence anchor (← blockItems fuel)
        else if block ∧ token = some .blockMappingStart then
          skip; return .mapping anchor (← blockEntries fuel)
        else if anchor.isSome || tag.isSome then return .scalar anchor tag [] true
        else failure

/-- A node, or nothing if one of the given tokens comes first. -/
def nodeUnless (ends : List Token) (block level : Bool) : (fuel : Nat) → Compose Node
  | 0 => failure
  | fuel + 1 => do if ← sees ends then return .empty else node block level fuel

/-- The items of a sequence up to the end of its block. -/
def blockItems : (fuel : Nat) → Compose (List Node)
  | 0 => failure
  | fuel + 1 => do
    match ← peek with
    | some .blockEntry =>
      skip
      let item ← nodeUnless [.blockEntry, .blockEnd] true false fuel
      return item :: (← blockItems fuel)
    | some .blockEnd => skip; return []
    | _ => failure

/-- The items of a sequence that ends where no hyphen follows. -/
def levelItems : (fuel : Nat) → Compose (List Node)
  | 0 => failure
  | fuel + 1 => do
    match ← peek with
    | some .blockEntry =>
      skip
      let item ← nodeUnless [.blockEntry, .key, .value, .blockEnd] true false fuel
      return item :: (← levelItems fuel)
    | _ => return []

/-- The entries of a mapping up to the end of its block. -/
def blockEntries : (fuel : Nat) → Compose (List (Node × Node))
  | 0 => failure
  | fuel + 1 => do
    match ← peek with
    | some .key =>
      skip
      let key ← nodeUnless [.key, .value, .blockEnd] true true fuel
      let value ← valueUnless [.key, .value, .blockEnd] true fuel
      return (key, value) :: (← blockEntries fuel)
    | some .blockEnd => skip; return []
    | _ => failure

/-- A value behind its sign; nothing if the sign is missing or one of the given tokens follows. -/
def valueUnless (ends : List Token) (block : Bool) : (fuel : Nat) → Compose Node
  | 0 => failure
  | fuel + 1 => do
    if ← sees [.value] then
      skip
      nodeUnless ends block block fuel
    else return .empty

/-- The items of a sequence between brackets. A key sign starts a mapping of one entry. -/
def flowItems (first : Bool) : (fuel : Nat) → Compose (List Node)
  | 0 => failure
  | fuel + 1 => do
    if ← sees [.flowSequenceEnd] then
      skip; return []
    unless first do
      guard (← sees [.flowEntry])
      skip
    match ← peek with
    | some .flowSequenceEnd => skip; return []
    | some .key =>
      skip
      let ends := [.flowEntry, .flowSequenceEnd]
      let key ←
        if ← sees (.value :: ends) then do skip; pure .empty
        else node false false fuel
      let value ← valueUnless ends false fuel
      return .mapping none [(key, value)] :: (← flowItems false fuel)
    | _ =>
      let item ← node false false fuel
      return item :: (← flowItems false fuel)

/-- The entries of a mapping between braces. -/
def flowEntries (first : Bool) : (fuel : Nat) → Compose (List (Node × Node))
  | 0 => failure
  | fuel + 1 => do
    if ← sees [.flowMappingEnd] then
      skip; return []
    unless first do
      guard (← sees [.flowEntry])
      skip
    let ends := [.flowEntry, .flowMappingEnd]
    match ← peek with
    | some .flowMappingEnd => skip; return []
    | some .key =>
      skip
      let key ← nodeUnless (.value :: ends) false false fuel
      let value ← valueUnless ends false fuel
      return (key, value) :: (← flowEntries false fuel)
    | _ =>
      let key ← node false false fuel
      return (key, .empty) :: (← flowEntries false fuel)

end

/-- The directives in front of a document, at most `fuel` of them; whether there was a version, and
whether there was any. -/
def directives (version : Bool) : (fuel : Nat) → Compose Unit
  | 0 => failure
  | fuel + 1 => do
    match ← peek with
    | some (.versionDirective major minor) =>
      guard (!version && major = 1 && (minor = 1 || minor = 2))
      skip
      directives true fuel
    | some (.tagDirective handle value) =>
      guard ((← get).handles.lookup handle).isNone
      modify fun c => { c with handles := c.handles ++ [(handle, value)] }
      skip
      directives version fuel
    | _ => return

/-- What the handles of tags stand for where no directive says otherwise. -/
def commonHandles : List (List Char × List Char) :=
  [(['!'], ['!']), (['!', '!'], "tag:yaml.org,2002:".toList)]

/-- Passes over the ends of documents, at most `fuel` of them, up to the end of the text. -/
def close : (fuel : Nat) → Compose Unit
  | 0 => failure
  | fuel + 1 => do
    match ← peek with
    | none => return
    | some .documentEnd => skip; close fuel
    | _ => failure

/-- The document of a text, if there is one. -/
def document (fuel : Nat) : Compose (Option Node) := do
  match ← peek with
  | none => return none
  | some (.versionDirective ..) | some (.tagDirective ..) | some .documentStart =>
    directives false fuel
    modify fun c => { c with handles := c.handles ++ commonHandles }
    guard (← sees [.documentStart])
    skip
    let root ← match ← peek with
      | none | some .documentEnd | some .documentStart | some (.versionDirective ..)
      | some (.tagDirective ..) => pure .empty
      | _ => node true false fuel
    close fuel
    return some root
  | _ =>
    modify fun c => { c with handles := commonHandles }
    let root ← node true false fuel
    close fuel
    return some root

end Compose

/-- The node that tokens stand for; `some none` if there are none. -/
def Node.ofTokens? (tokens : List Token) : Option (Option Node) :=
  (Compose.document (4 * tokens.length + 4) { tokens }).map (·.1)

/-! ## Documents -/

/-- A document; without a root it is empty. -/
structure Document where
  root : Option Node
deriving Repr, Inhabited

namespace Document

/-- Reads a text of one document. -/
def parse? (text : String) : Option Document := do
  return { root := ← Node.ofTokens? (← tokens? text.toList) }

/-- The node itself, or the node that an alias stands for: the innermost and last one of its
number. -/
def resolve (document : Document) : Node → Node
  | .reference number =>
    let all := document.root.elim [] Node.anchored
    (all.reverse.lookup number).getD .empty
  | node => node

/-- The text of a scalar. -/
def text? (document : Document) (node : Node) : Option String :=
  match document.resolve node with
  | .scalar _ _ text _ => some (String.ofList text)
  | _ => none

/-- The words for nothing. -/
def isNull (text : List Char) : Bool :=
  ["null", "Null", "NULL", "~"].contains (String.ofList text)

/-- The tag of nothing. -/
def nullTag : List Char := "tag:yaml.org,2002:null".toList

/-- Whether a node stands for nothing. None if its tag says so but its text does not. -/
def isNothing? (document : Document) (node : Node) : Option Bool :=
  match document.resolve node with
  | .scalar _ none text true => some (text.isEmpty || isNull text)
  | .scalar _ (some tag) text true =>
    if tag = nullTag then (if isNull text then some true else none) else some false
  | _ => some false

/-- The text of a scalar that may stand for nothing. -/
def optional? (document : Document) (node : Node) : Option (Option String) := do
  if ← document.isNothing? node then return none else return some (← document.text? node)

/-- The items of a sequence; none at all if it is left out. -/
def items? (document : Document) (node : Node) : Option (List Node) :=
  match document.resolve node with
  | .sequence _ items => some items
  | .scalar _ _ [] true => some []
  | _ => none

/-- The values of a mapping under their keys; none at all if it is left out. -/
def entries? (document : Document) (node : Node) : Option (List (String × Node)) :=
  match document.resolve node with
  | .mapping _ entries => entries.mapM fun (key, value) => (document.text? key).map (·, value)
  | .scalar _ _ [] true => some []
  | _ => none

/-- The value of a key. Keys that are asked for may occur once only. -/
def member? (key : String) (entries : List (String × Node)) : Option (Option Node) :=
  match entries.filter (·.1 = key) with
  | [] => some none
  | [(_, value)] => some (some value)
  | _ => none

/-- The text of a key that must be there. -/
def required? (document : Document) (key : String) (entries : List (String × Node)) :
    Option String := do
  (← member? key entries).bind document.text?

/-- The text of a key that may be left out. -/
def optionalMember? (document : Document) (key : String) (entries : List (String × Node)) :
    Option (Option String) := do
  match ← member? key entries with
  | none => some none
  | some node => document.optional? node

end Document

end StubManager.Yaml
